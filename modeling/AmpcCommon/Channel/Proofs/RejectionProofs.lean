import AmpcCommon.Base.Transition
import AmpcCommon.Channel.Striping

/-!
# Rejected fragments

A peer can put any value on the stream of a session. `receive` refuses values in many places, and most of them are
checked before anything is changed. Two are not: `Assembly::insert` counts a fragment before it finds it too long, and
`take_completed` takes a message out of the queue before it is put together. The fragments that come to one of these are
the only ones that leave a trace (`rejected_fragments_iff`).
-/

namespace AmpcCommon.Channel

open Wire

/-- What a session does, or a value its peer puts on the stream. -/
inductive PeerEvent where
  | own (e : StripedEvent)
  | inject (value : NetworkValue)

/-- One step of a session whose peer sends anything. -/
def StripedChannel.stepAny (s : StripedChannel) : PeerEvent → Option StripedChannel
  | .own e => s.step e
  | .inject value => some { s with inbound := s.inbound ++ [value] }

/-! ## Consistent assemblies -/

/-- The counters of an assembly are those of its chunks. -/
structure Assembly.Consistent (a : Assembly) : Prop where
  received : a.received = a.chunks.countP Option.isSome
  receivedLen : a.receivedLen = (a.chunks.map fun chunk => (chunk.getD []).length).sum
  le_totalLen : a.receivedLen ≤ a.totalLen

def PeerIo.Consistent (peer : PeerIo) : Prop := ∀ sequence a, peer.pending sequence = some a → a.Consistent

namespace Assembly

variable {a : Assembly} {f : Fragment}

theorem consistent_new (f : Fragment) : (new f).Consistent where
  received := by simp [new, List.countP_replicate]
  receivedLen := by simp [new]
  le_totalLen := Nat.zero_le _

/-- The assembly with a fragment in its place. -/
def filled (a : Assembly) (f : Fragment) : Assembly where
  totalLen := a.totalLen
  chunks := a.chunks.set f.index (some f.payload)
  received := a.received + 1
  receivedLen := a.receivedLen + f.payload.length

theorem consistent_filled (h : a.Consistent) (hslot : a.chunks[f.index]? = some none)
    (hfits : a.receivedLen + f.payload.length ≤ a.totalLen) : (a.filled f).Consistent := by
  obtain ⟨hlt, hget⟩ := List.getElem?_eq_some_iff.mp hslot
  have hchunks : a.chunks = a.chunks.take f.index ++ none :: a.chunks.drop (f.index + 1) := by
    rw [← hget, List.getElem_cons_drop, List.take_append_drop]
  have hset : a.chunks.set f.index (some f.payload) =
      a.chunks.take f.index ++ some f.payload :: a.chunks.drop (f.index + 1) := by
    rw [List.set_eq_take_append_cons_drop, if_pos hlt]
  generalize a.chunks.take f.index = l at hchunks hset
  generalize a.chunks.drop (f.index + 1) = r at hchunks hset
  refine ⟨?_, ?_, hfits⟩
  · show a.received + 1 = (a.chunks.set _ _).countP _
    rw [hset, h.received, hchunks]
    simp [List.countP_append]
    omega
  · show a.receivedLen + _ = ((a.chunks.set _ _).map _).sum
    rw [hset, h.receivedLen, hchunks]
    simp
    omega

/-- A complete assembly has all its chunks. -/
theorem assemble_eq (h : a.Consistent) (hcomplete : a.isComplete = true) :
    a.assemble = if a.receivedLen ≠ a.totalLen then .bail "striped MPC message length mismatch"
      else NetworkValue.deserialize (a.chunks.map fun chunk => chunk.getD []).flatten := by
  have hall : ∀ chunk ∈ a.chunks, chunk.isSome = true := by
    have hcount : a.received = a.chunks.length := of_decide_eq_true hcomplete
    rw [h.received] at hcount
    exact List.countP_eq_length.mp hcount
  unfold assemble
  rw [if_neg (not_not.mpr hcomplete), Outcome.mapM_eq_ok (g := fun chunk => chunk.getD [])]
  · rfl
  · intro chunk hchunk
    obtain ⟨bytes, rfl⟩ := Option.isSome_iff_exists.mp (hall chunk hchunk)
    rfl

end Assembly

/-! ## Taking in a value -/

section Accept

variable {maxFragments : Nat} {peer : PeerIo} {value : NetworkValue} {f : Fragment} {a : Assembly}

theorem Fragment.index_lt (h : Fragment.decode value = .ok f) : f.index < f.count := by
  unfold Fragment.decode at h
  cases value with
  | bytes bytes =>
    dsimp only at h
    split at h
    next => cases h
    obtain ⟨magic, -, h⟩ := Outcome.bind_eq_ok.mp h
    split at h
    next => cases h
    obtain ⟨sequence, -, h⟩ := Outcome.bind_eq_ok.mp h
    obtain ⟨totalLen, -, h⟩ := Outcome.bind_eq_ok.mp h
    obtain ⟨index, -, h⟩ := Outcome.bind_eq_ok.mp h
    obtain ⟨count, -, h⟩ := Outcome.bind_eq_ok.mp h
    split at h
    next => cases h
    split at h
    next => cases h
    next hlt =>
      split at h
      next => cases h
      cases h
      exact not_le.mp hlt
  | _ => cases h

/-- The value is a fragment that belongs to the message `a`, and its place there is free. -/
structure Placed (maxFragments : Nat) (peer : PeerIo) (value : NetworkValue) (f : Fragment) (a : Assembly) : Prop where
  decode : Fragment.decode value = .ok f
  count_le : f.count ≤ maxFragments
  current : peer.nextReceiveSequence ≤ f.sequence
  assembly : a = (peer.pending f.sequence).getD (.new f)
  totalLen : a.totalLen = f.totalLen
  count : a.chunks.length = f.count
  slot : a.chunks[f.index]? = some none

theorem Placed.consistent (h : Placed maxFragments peer value f a) (hpeer : peer.Consistent) : a.Consistent := by
  rw [h.assembly]
  cases hp : peer.pending f.sequence with
  | none => exact Assembly.consistent_new f
  | some a => exact hpeer _ a hp

/-- The peer with another assembly for a message. -/
def PeerIo.put (peer : PeerIo) (sequence : Nat) (a : Assembly) : PeerIo :=
  { peer with pending := Function.update peer.pending sequence (some a) }

theorem PeerIo.consistent_put (hpeer : peer.Consistent) (ha : a.Consistent) (sequence : Nat) :
    (peer.put sequence a).Consistent := by
  intro q a' hq
  by_cases h : q = sequence
  · subst h
    rw [show (peer.put q a).pending q = some a from Function.update_self _ _ _] at hq
    exact Option.some.inj hq ▸ ha
  · rw [show (peer.put sequence a).pending q = peer.pending q from Function.update_of_ne h _ _] at hq
    exact hpeer q a' hq

theorem PeerIo.put_self {sequence : Nat} (h : peer.pending sequence = some a) : peer.put sequence a = peer := by
  unfold put
  rw [Function.update_eq_self_iff.mpr h.symm]

theorem accept_of_fits (h : Placed maxFragments peer value f a)
    (hfits : a.receivedLen + f.payload.length ≤ a.totalLen) :
    peer.accept maxFragments value = (peer.put f.sequence (a.filled f), .ok ()) := by
  unfold PeerIo.accept
  rw [h.decode]
  dsimp only
  rw [if_neg (not_lt.mpr h.count_le), if_neg (not_lt.mpr h.current), ← h.assembly]
  unfold Assembly.insert
  rw [if_neg (not_not.mpr ⟨h.totalLen, h.count⟩), h.slot]
  dsimp only
  rw [if_neg (not_lt.mpr hfits)]
  rfl

/-- A fragment that is too long is counted, and then rejected. -/
theorem accept_of_overflow (h : Placed maxFragments peer value f a)
    (hover : ¬ a.receivedLen + f.payload.length ≤ a.totalLen) :
    ∃ e, peer.accept maxFragments value = (peer.put f.sequence { a with
      received := a.received + 1
      receivedLen := a.receivedLen + f.payload.length }, .error e) := by
  unfold PeerIo.accept
  rw [h.decode]
  dsimp only
  rw [if_neg (not_lt.mpr h.count_le), if_neg (not_lt.mpr h.current), ← h.assembly]
  unfold Assembly.insert
  rw [if_neg (not_not.mpr ⟨h.totalLen, h.count⟩), h.slot]
  dsimp only
  rw [if_pos (not_le.mp hover)]
  exact ⟨_, rfl⟩

/-- Every other value is rejected before anything is changed. -/
theorem accept_of_not_placed (h : ∀ f a, ¬ Placed maxFragments peer value f a) :
    ∃ e, peer.accept maxFragments value = (peer, .error e) := by
  unfold PeerIo.accept
  cases hdecode : Fragment.decode value with
  | error e => exact ⟨e, rfl⟩
  | ok f =>
    dsimp only
    by_cases hcount : maxFragments < f.count
    · rw [if_pos hcount]
      exact ⟨_, rfl⟩
    rw [if_neg hcount]
    by_cases hstale : f.sequence < peer.nextReceiveSequence
    · rw [if_pos hstale]
      exact ⟨_, rfl⟩
    rw [if_neg hstale]
    have hplaced : ∀ a, a = (peer.pending f.sequence).getD (.new f) → a.totalLen = f.totalLen →
        a.chunks.length = f.count → a.chunks[f.index]? ≠ some none := fun a ha htotal hlength hslot =>
      h f a ⟨hdecode, not_lt.mp hcount, not_lt.mp hstale, ha, htotal, hlength, hslot⟩
    cases hpending : peer.pending f.sequence with
    | none =>
      -- a new assembly has place for every fragment
      refine absurd ?_ (hplaced (.new f) (by rw [hpending]; rfl) rfl List.length_replicate)
      rw [Assembly.new, List.getElem?_replicate, if_pos (Fragment.index_lt hdecode)]
    | some a =>
      rw [Option.getD_some]
      have hself := peer.put_self hpending
      unfold PeerIo.put at hself
      unfold Assembly.insert
      by_cases hmeta : a.totalLen = f.totalLen ∧ a.chunks.length = f.count
      · rw [if_neg (not_not.mpr hmeta)]
        have hslot := hplaced a (by rw [hpending]; rfl) hmeta.1 hmeta.2
        match hget : a.chunks[f.index]? with
        | none =>
          dsimp only
          rw [hself]
          exact ⟨_, rfl⟩
        | some (some _) =>
          dsimp only
          rw [hself]
          exact ⟨_, rfl⟩
        | some none => exact absurd hget hslot
      · rw [if_pos hmeta]
        dsimp only
        rw [hself]
        exact ⟨_, rfl⟩

/-- A value is rejected, or it is taken into an assembly that is consistent. -/
theorem accept_cases (hpeer : peer.Consistent) (maxFragments : Nat) (value : NetworkValue) :
    (∃ peer' e, peer.accept maxFragments value = (peer', .error e) ∧ peer'.connections = peer.connections) ∨
      ∃ peer', peer.accept maxFragments value = (peer', .ok ()) ∧ peer'.connections = peer.connections ∧
        peer'.Consistent := by
  by_cases hplaced : ∃ f a, Placed maxFragments peer value f a
  · obtain ⟨f, a, hplaced⟩ := hplaced
    by_cases hfits : a.receivedLen + f.payload.length ≤ a.totalLen
    · have ha := Assembly.consistent_filled (hplaced.consistent hpeer) hplaced.slot hfits
      exact Or.inr ⟨_, accept_of_fits hplaced hfits, rfl, PeerIo.consistent_put hpeer ha _⟩
    · obtain ⟨e, he⟩ := accept_of_overflow hplaced hfits
      exact Or.inl ⟨_, e, he, rfl⟩
  · push Not at hplaced
    obtain ⟨e, he⟩ := accept_of_not_placed hplaced
    exact Or.inl ⟨peer, e, he, rfl⟩

end Accept

/-! ## Taking out a message -/

section Take

variable {peer : PeerIo} {a : Assembly}

/-- The peer without the assembly of a message. -/
def PeerIo.remove (peer : PeerIo) (sequence : Nat) : PeerIo :=
  { peer with pending := Function.update peer.pending sequence none }

theorem PeerIo.consistent_remove (hpeer : peer.Consistent) (sequence : Nat) : (peer.remove sequence).Consistent := by
  intro q a hq
  by_cases h : q = sequence
  · subst h
    rw [show (peer.remove q).pending q = none from Function.update_self _ _ _] at hq
    cases hq
  · rw [show (peer.remove sequence).pending q = peer.pending q from Function.update_of_ne h _ _] at hq
    exact hpeer q a hq

theorem takeCompleted_waits (h : ∀ a, peer.pending peer.nextReceiveSequence = some a → ¬ a.isComplete = true) :
    peer.takeCompleted = (peer, .ok none) := by
  unfold PeerIo.takeCompleted
  dsimp only
  cases hp : peer.pending peer.nextReceiveSequence with
  | none => rfl
  | some a => exact if_pos (h a hp)

theorem takeCompleted_exhausted (h : peer.pending peer.nextReceiveSequence = some a) (hcomplete : a.isComplete = true)
    (hseq : 2 ^ 64 ≤ peer.nextReceiveSequence + 1) :
    ∃ e, peer.takeCompleted = (peer.remove peer.nextReceiveSequence, .error e) := by
  unfold PeerIo.takeCompleted
  dsimp only
  rw [h]
  dsimp only
  rw [if_neg (not_not.mpr hcomplete), if_pos hseq]
  exact ⟨_, rfl⟩

theorem takeCompleted_complete (h : peer.pending peer.nextReceiveSequence = some a) (hcomplete : a.isComplete = true)
    (hseq : ¬ 2 ^ 64 ≤ peer.nextReceiveSequence + 1) :
    peer.takeCompleted = ({ peer.remove peer.nextReceiveSequence with
      nextReceiveSequence := peer.nextReceiveSequence + 1 }, a.assemble.map some) := by
  unfold PeerIo.takeCompleted
  dsimp only
  rw [h]
  dsimp only
  rw [if_neg (not_not.mpr hcomplete), if_neg hseq]
  rfl

end Take

/-! ## Steps -/

namespace StripedChannel

variable {s t : StripedChannel}

theorem poll_waits (h : ∀ a, s.receiver.pending s.receiver.nextReceiveSequence = some a → ¬ a.isComplete = true) :
    s.poll = { s with receiving := true } := by
  unfold poll
  rw [takeCompleted_waits h]

theorem poll_exhausted {a : Assembly} (ha : s.receiver.pending s.receiver.nextReceiveSequence = some a)
    (hcomplete : a.isComplete = true) (hseq : 2 ^ 64 ≤ s.receiver.nextReceiveSequence + 1) :
    ∃ e, s.poll = { s with receiver := s.receiver.remove s.receiver.nextReceiveSequence }.finish
      (.returned (.error e)) := by
  obtain ⟨e, he⟩ := takeCompleted_exhausted ha hcomplete hseq
  unfold poll
  rw [he]
  exact ⟨e, rfl⟩

theorem poll_complete {a : Assembly} (ha : s.receiver.pending s.receiver.nextReceiveSequence = some a)
    (hcomplete : a.isComplete = true) (hseq : ¬ 2 ^ 64 ≤ s.receiver.nextReceiveSequence + 1) :
    s.poll = { s with receiver := { s.receiver.remove s.receiver.nextReceiveSequence with
      nextReceiveSequence := s.receiver.nextReceiveSequence + 1 } }.finish (.returned a.assemble) := by
  unfold poll
  rw [takeCompleted_complete ha hcomplete hseq]
  cases a.assemble <;> rfl

/-- Polling takes out a message that is complete, or waits. -/
theorem poll_cases (s : StripedChannel) : s.poll = { s with receiving := true } ∧
      (∀ a, s.receiver.pending s.receiver.nextReceiveSequence = some a → ¬ a.isComplete = true) ∨
    ∃ n r, s.poll = { s with receiver := { s.receiver.remove s.receiver.nextReceiveSequence with
      nextReceiveSequence := n } }.finish (.returned r) := by
  by_cases h : ∀ a, s.receiver.pending s.receiver.nextReceiveSequence = some a → ¬ a.isComplete = true
  · exact Or.inl ⟨poll_waits h, h⟩
  · push Not at h
    obtain ⟨a, ha, hcomplete⟩ := h
    right
    by_cases hseq : 2 ^ 64 ≤ s.receiver.nextReceiveSequence + 1
    · obtain ⟨e, he⟩ := poll_exhausted ha hcomplete hseq
      exact ⟨_, _, he⟩
    · exact ⟨_, _, poll_complete ha hcomplete hseq⟩

theorem consistent_poll (h : s.receiver.Consistent) : s.poll.receiver.Consistent := by
  rcases poll_cases s with ⟨hpoll, -⟩ | ⟨n, r, hpoll⟩
  · rw [hpoll]
    exact h
  · rw [hpoll]
    exact PeerIo.consistent_remove h _

/-- What a session keeps about its peer: consistent assemblies, and while it waits, a next message that is not
complete. -/
structure RecvInv (s : StripedChannel) : Prop where
  consistent : s.receiver.Consistent
  waiting : s.receiving = true →
    ∀ a, s.receiver.pending s.receiver.nextReceiveSequence = some a → ¬ a.isComplete = true
  single : s.receiver.connections = 1 → ∀ sequence, s.receiver.pending sequence = none

theorem recvInv_new (n : Nat) : (new n).RecvInv where
  consistent := by
    intro _ _ h
    cases h
  waiting := by
    intro h
    cases h
  single := fun _ _ => rfl

/-- Polling ends in the invariant. -/
theorem recvInv_poll (h : s.receiver.Consistent) (hne : s.receiver.connections ≠ 1) : s.poll.RecvInv := by
  rcases poll_cases s with ⟨hpoll, hwaits⟩ | ⟨n, r, hpoll⟩
  · rw [hpoll]
    exact ⟨h, fun _ => hwaits, fun hone => absurd hone hne⟩
  · rw [hpoll]
    exact ⟨PeerIo.consistent_remove h _, (fun hrecv => by cases hrecv), fun hone => absurd hone hne⟩

/-- A message is complete with this fragment, and it can be handed over: the lengths add up, the bytes are a value and
there is a sequence number left. When there is none, a message in one piece leaves nothing behind. -/
def Deliverable (peer : PeerIo) (f : Fragment) (a : Assembly) : Prop :=
  if 2 ^ 64 ≤ peer.nextReceiveSequence + 1 then peer.pending f.sequence = none
  else a.receivedLen + f.payload.length = a.totalLen ∧
    ∃ v, NetworkValue.deserialize ((a.chunks.set f.index (some f.payload)).map fun chunk => chunk.getD []).flatten =
      .ok v

/-- A fragment for a free place is not longer than what its message has left, and a message that is complete with it
can be handed over. -/
def FragmentFits (maxFragments : Nat) (peer : PeerIo) (value : NetworkValue) : Prop :=
  ∀ f a, Placed maxFragments peer value f a → a.receivedLen + f.payload.length ≤ a.totalLen ∧
    (f.sequence = peer.nextReceiveSequence → a.received + 1 = f.count → Deliverable peer f a)

/-- The value that `receive` takes from the queue fits. -/
def StepFits (s : StripedChannel) (e : PeerEvent) : Prop :=
  e = .own .recv → s.receiving = true → s.receiver.connections ≠ 1 → ∀ value rest, s.inbound = value :: rest →
    FragmentFits s.maxFragments s.receiver value

/-- After the step all assemblies are consistent, and if the value that `receive` has taken makes it fail, the peer is
as it was before. -/
def LeavesNoTrace (s : StripedChannel) (e : PeerEvent) : Prop :=
  ∀ t, s.stepAny e = some t → t.receiver.Consistent ∧
    (e = .own .recv → (∃ err, t.results = s.results ++ [.returned (.error err)]) → t.receiver = s.receiver)

/-- What the step of `receive` does with a value. -/
theorem step_recv_eq {value : NetworkValue} {rest : List NetworkValue} (hrecv : s.receiving = true)
    (hne : s.receiver.connections ≠ 1) (hin : s.inbound = value :: rest) :
    s.step .recv = match s.receiver.accept s.maxFragments value with
      | (receiver, .error e) => some ({ s with inbound := rest, receiver }.finish (.returned (.error e)))
      | (receiver, .ok ()) => some { s with inbound := rest, receiver }.poll := by
  unfold step
  rw [hrecv, hin]
  dsimp only
  rw [if_neg hne]
  rcases s.receiver.accept s.maxFragments value with ⟨receiver, result⟩
  cases result <;> rfl

/-- The values that are rejected at once. -/
theorem leavesNoTrace_of_not_placed (h : s.RecvInv) {value : NetworkValue} {rest : List NetworkValue}
    (hrecv : s.receiving = true) (hne : s.receiver.connections ≠ 1) (hin : s.inbound = value :: rest)
    (hnot : ∀ f a, ¬ Placed s.maxFragments s.receiver value f a) : s.LeavesNoTrace (.own .recv) := by
  intro t ht
  obtain ⟨e, he⟩ := accept_of_not_placed hnot
  change s.step .recv = some t at ht
  rw [step_recv_eq hrecv hne hin, he] at ht
  cases ht
  exact ⟨h.consistent, fun _ _ => rfl⟩

/-- A fragment that is too long changes the counters of its message. -/
theorem not_leavesNoTrace_of_overflow (h : s.RecvInv) {value : NetworkValue} {rest : List NetworkValue}
    (hrecv : s.receiving = true) (hne : s.receiver.connections ≠ 1) (hin : s.inbound = value :: rest) {f : Fragment}
    {a : Assembly} (hplaced : Placed s.maxFragments s.receiver value f a)
    (hover : ¬ a.receivedLen + f.payload.length ≤ a.totalLen) : ¬ s.LeavesNoTrace (.own .recv) := by
  intro htrace
  obtain ⟨e, he⟩ := accept_of_overflow hplaced hover
  have hstep : s.stepAny (.own .recv) = _ := step_recv_eq hrecv hne hin
  rw [he] at hstep
  have hcounted := ((htrace _ hstep).1 f.sequence _ (Function.update_self _ _ _)).received
  have hcount := (hplaced.consistent h.consistent).received
  change a.received + 1 = a.chunks.countP Option.isSome at hcounted
  omega

/-- A message that is complete is handed over without an error, or leaves the peer as it was, when it is deliverable. -/
theorem poll_complete_iff {s' : StripedChannel} {f : Fragment} {a : Assembly} (hconsistent : (a.filled f).Consistent)
    (hcomplete : (a.filled f).isComplete = true)
    (hpending : s'.receiver.pending s'.receiver.nextReceiveSequence = some (a.filled f))
    (hremove : s'.receiver.remove s'.receiver.nextReceiveSequence = s.receiver.remove f.sequence)
    (hresults : s'.results = s.results)
    (hnext : s'.receiver.nextReceiveSequence = s.receiver.nextReceiveSequence) :
    ((∃ err, s'.poll.results = s.results ++ [.returned (.error err)]) → s'.poll.receiver = s.receiver) ↔
      Deliverable s.receiver f a := by
  have hmoved : ∀ peer : PeerIo, ({ peer with
      nextReceiveSequence := s.receiver.nextReceiveSequence + 1 } : PeerIo) ≠ s.receiver := by
    intro peer heq
    have hseq' := congrArg PeerIo.nextReceiveSequence heq
    exact absurd hseq' (Nat.succ_ne_self _)
  unfold Deliverable
  by_cases hexhausted : 2 ^ 64 ≤ s.receiver.nextReceiveSequence + 1
  · obtain ⟨e, he⟩ := poll_exhausted hpending hcomplete (hnext ▸ hexhausted)
    rw [if_pos hexhausted, he, hremove]
    constructor
    · intro hsame
      have hback : s.receiver.remove f.sequence = s.receiver := hsame ⟨e, congrArg (· ++ _) hresults⟩
      rw [← hback]
      exact Function.update_self _ _ _
    · intro hnone _
      show s.receiver.remove f.sequence = s.receiver
      unfold PeerIo.remove
      rw [Function.update_eq_self_iff.mpr hnone.symm]
  · rw [if_neg hexhausted, poll_complete hpending hcomplete (hnext ▸ hexhausted), hremove, hnext,
      Assembly.assemble_eq hconsistent hcomplete]
    show _ ↔ (a.filled f).receivedLen = (a.filled f).totalLen ∧ ∃ v, NetworkValue.deserialize
      ((a.filled f).chunks.map fun chunk => chunk.getD []).flatten = .ok v
    by_cases hlength : (a.filled f).receivedLen = (a.filled f).totalLen
    · rw [if_neg (not_not.mpr hlength)]
      cases hvalue : NetworkValue.deserialize ((a.filled f).chunks.map fun chunk => chunk.getD []).flatten with
      | ok v =>
        -- the message is handed over
        refine ⟨fun _ => ⟨hlength, v, rfl⟩, ?_⟩
        rintro - ⟨err, herr⟩
        cases List.singleton_inj.mp (List.append_cancel_left ((congrArg (· ++ _) hresults.symm).trans herr))
      | error e =>
        refine ⟨fun hsame => absurd (hsame ⟨e, congrArg (· ++ _) hresults⟩) (hmoved _), ?_⟩
        rintro ⟨-, v, hv⟩
        cases hv
    · rw [if_pos hlength]
      refine ⟨fun hsame => absurd (hsame ⟨_, congrArg (· ++ _) hresults⟩) (hmoved _), ?_⟩
      rintro ⟨heq, -⟩
      exact absurd heq hlength

/-- A fragment that is taken in: it fits, and then its message is handed over if it is complete. -/
theorem leavesNoTrace_of_placed_iff (h : s.RecvInv) {value : NetworkValue} {rest : List NetworkValue}
    (hrecv : s.receiving = true) (hne : s.receiver.connections ≠ 1) (hin : s.inbound = value :: rest) {f : Fragment}
    {a : Assembly} (hplaced : Placed s.maxFragments s.receiver value f a)
    (hfits : a.receivedLen + f.payload.length ≤ a.totalLen) : s.LeavesNoTrace (.own .recv) ↔
      (f.sequence = s.receiver.nextReceiveSequence → a.received + 1 = f.count → Deliverable s.receiver f a) := by
  have hconsistent := Assembly.consistent_filled (hplaced.consistent h.consistent) hplaced.slot hfits
  have hreceiver : (s.receiver.put f.sequence (a.filled f)).Consistent :=
    PeerIo.consistent_put h.consistent hconsistent f.sequence
  have hcomplete : (a.filled f).isComplete = true ↔ a.received + 1 = f.count := by
    rw [← hplaced.count]
    show decide (a.received + 1 = (a.chunks.set _ _).length) = true ↔ _
    rw [List.length_set, decide_eq_true_iff]
  generalize hs' :
    ({ s with inbound := rest, receiver := s.receiver.put f.sequence (a.filled f) } : StripedChannel) = s'
  have hstep : s.stepAny (.own .recv) = some s'.poll := by
    have heq : s.stepAny (.own .recv) = _ := step_recv_eq hrecv hne hin
    rw [heq, accept_of_fits hplaced hfits, ← hs']
  have htrace : s.LeavesNoTrace (.own .recv) ↔
      ((∃ err, s'.poll.results = s.results ++ [.returned (.error err)]) → s'.poll.receiver = s.receiver) := by
    constructor
    · intro h
      exact (h _ hstep).2 rfl
    · intro h t ht
      obtain rfl : s'.poll = t := Option.some.inj (hstep.symm.trans ht)
      refine ⟨consistent_poll ?_, fun _ => h⟩
      rw [← hs']
      exact hreceiver
  rw [htrace]
  by_cases hlast : f.sequence = s.receiver.nextReceiveSequence ∧ a.received + 1 = f.count
  · obtain ⟨hseq, hcount⟩ := hlast
    -- the message is complete
    have hpending : s'.receiver.pending s'.receiver.nextReceiveSequence = some (a.filled f) := by
      rw [← hs']
      show Function.update _ _ _ s.receiver.nextReceiveSequence = _
      rw [← hseq, Function.update_self]
    have hremove : s'.receiver.remove s'.receiver.nextReceiveSequence = s.receiver.remove f.sequence := by
      rw [← hs']
      unfold PeerIo.remove PeerIo.put
      dsimp only
      rw [← hseq, Function.update_idem]
    have hresults : s'.results = s.results := by
      rw [← hs']
    have hnext : s'.receiver.nextReceiveSequence = s.receiver.nextReceiveSequence := by
      rw [← hs']
      rfl
    rw [forall_prop_of_true hseq, forall_prop_of_true hcount]
    exact poll_complete_iff hconsistent (hcomplete.mpr hcount) hpending hremove hresults hnext
  · have hwaits : ∀ b, s'.receiver.pending s'.receiver.nextReceiveSequence = some b → ¬ b.isComplete = true := by
      intro b hb
      rw [← hs'] at hb
      change Function.update s.receiver.pending f.sequence (some (a.filled f)) s.receiver.nextReceiveSequence = _ at hb
      by_cases hseq : f.sequence = s.receiver.nextReceiveSequence
      · rw [hseq, Function.update_self] at hb
        rw [← Option.some.inj hb, hcomplete]
        exact fun hcount => hlast ⟨hseq, hcount⟩
      · rw [Function.update_of_ne (Ne.symm hseq)] at hb
        exact h.waiting hrecv b hb
    rw [poll_waits hwaits]
    constructor
    · intro _ hseq hcount
      exact absurd ⟨hseq, hcount⟩ hlast
    · rintro - ⟨err, herr⟩
      rw [← hs'] at herr
      exact absurd herr (by simp)

/-- The other steps keep the invariant. -/
theorem recvInv_step_of_ne (h : s.RecvInv) {e : PeerEvent} (he : e ≠ .own .recv) (ht : s.stepAny e = some t) :
    t.RecvInv := by
  cases e with
  | inject value =>
    cases ht
    exact ⟨h.consistent, h.waiting, h.single⟩
  | own e =>
    change s.step e = some t at ht
    cases e with
    | recv => exact absurd rfl he
    | send value =>
      unfold step at ht
      dsimp only at ht
      rcases hsend : s.sender.send value with ⟨sender, result⟩
      rw [hsend] at ht
      cases result with
      | error e =>
        cases ht
        exact ⟨h.consistent, h.waiting, h.single⟩
      | ok fragments =>
        cases ht
        exact ⟨h.consistent, h.waiting, h.single⟩
    | arrive c =>
      unfold step at ht
      dsimp only at ht
      split at ht
      next value rest hc =>
        split at ht
        next =>
          cases ht
          exact ⟨h.consistent, h.waiting, h.single⟩
        next => cases ht
      next => cases ht
    | call =>
      unfold step at ht
      dsimp only at ht
      split at ht
      next => cases ht
      next hrecv =>
        split at ht
        next hone =>
          cases ht
          exact ⟨h.consistent, fun _ a ha => by simp [h.single hone] at ha, h.single⟩
        next hne =>
          cases ht
          exact recvInv_poll h.consistent hne
    | timeout =>
      unfold step at ht
      dsimp only at ht
      split at ht
      next =>
        cases ht
        exact ⟨h.consistent, (fun hrecv => by cases hrecv), h.single⟩
      next => cases ht

/-- A `receive` that takes a value: it waits, and there is a value. -/
theorem step_recv_some (ht : s.step .recv = some t) :
    s.receiving = true ∧ ∃ value rest, s.inbound = value :: rest := by
  unfold step at ht
  dsimp only at ht
  cases hrecv : s.receiving with
  | false =>
    rw [hrecv] at ht
    cases ht
  | true =>
    cases hin : s.inbound with
    | nil =>
      rw [hrecv, hin] at ht
      cases ht
    | cons value rest => exact ⟨rfl, value, rest, rfl⟩

/-- With one connection the value is what `receive` returns. -/
theorem step_recv_single {value : NetworkValue} {rest : List NetworkValue} (hrecv : s.receiving = true)
    (hone : s.receiver.connections = 1) (hin : s.inbound = value :: rest) :
    s.step .recv = some ({ s with inbound := rest }.finish (.returned (.ok value))) := by
  unfold step
  rw [hrecv, hin]
  dsimp only
  rw [if_pos hone]

/-- A step leaves no trace exactly when what it takes in fits. -/
theorem leavesNoTrace_iff_fits (h : s.RecvInv) (e : PeerEvent) : s.LeavesNoTrace e ↔ s.StepFits e := by
  by_cases he : e = .own .recv
  · subst he
    by_cases hone : s.receiver.connections = 1
    · refine ⟨fun _ _ _ hne => absurd hone hne, fun _ t ht => ?_⟩
      obtain ⟨hrecv, value, rest, hin⟩ := step_recv_some ht
      have hstep : s.stepAny (.own .recv) = _ := step_recv_single hrecv hone hin
      rw [hstep] at ht
      cases ht
      exact ⟨h.consistent, fun _ _ => rfl⟩
    · constructor
      · intro htrace _ hrecv _ value rest hin f a hplaced
        by_cases hfits : a.receivedLen + f.payload.length ≤ a.totalLen
        · exact ⟨hfits, (leavesNoTrace_of_placed_iff h hrecv hone hin hplaced hfits).mp htrace⟩
        · exact absurd htrace (not_leavesNoTrace_of_overflow h hrecv hone hin hplaced hfits)
      · intro hfits t ht
        obtain ⟨hrecv, value, rest, hin⟩ := step_recv_some ht
        refine (?_ : s.LeavesNoTrace (.own .recv)) t ht
        by_cases hplaced : ∃ f a, Placed s.maxFragments s.receiver value f a
        · obtain ⟨f, a, hplaced⟩ := hplaced
          obtain ⟨hlen, hdeliver⟩ := hfits rfl hrecv hone value rest hin f a hplaced
          exact (leavesNoTrace_of_placed_iff h hrecv hone hin hplaced hlen).mpr hdeliver
        · push Not at hplaced
          exact leavesNoTrace_of_not_placed h hrecv hone hin hplaced
  · refine ⟨fun _ hrecv => absurd hrecv he, fun _ t ht => ?_⟩
    exact ⟨(recvInv_step_of_ne h he ht).consistent, fun hrecv => absurd hrecv he⟩

/-- A step that leaves no trace keeps the invariant. -/
theorem recvInv_step (h : s.RecvInv) {e : PeerEvent} (htrace : s.LeavesNoTrace e) (ht : s.stepAny e = some t) :
    t.RecvInv := by
  by_cases he : e = .own .recv
  · subst he
    have hconsistent := (htrace t ht).1
    change s.step .recv = some t at ht
    obtain ⟨hrecv, value, rest, hin⟩ := step_recv_some ht
    by_cases hone : s.receiver.connections = 1
    · rw [step_recv_single hrecv hone hin] at ht
      cases ht
      exact ⟨h.consistent, (fun hrecv => by cases hrecv), h.single⟩
    · rw [step_recv_eq hrecv hone hin] at ht
      rcases accept_cases h.consistent s.maxFragments value with
        ⟨peer, e, haccept, hconn⟩ | ⟨peer, haccept, hconn, hpeer⟩
      · rw [haccept] at ht
        cases ht
        exact ⟨hconsistent, (fun hrecv => by cases hrecv), fun hone' => absurd (hconn.symm.trans hone') hone⟩
      · rw [haccept] at ht
        cases ht
        exact recvInv_poll hpeer fun hone' => hone (hconn.symm.trans hone')
  · exact recvInv_step_of_ne h he ht

/-- **Rejected fragments**: in a run whose values all fit, and in no other one, every state has consistent assemblies
and a value that makes `receive` fail leaves the peer as it was. -/
theorem rejected_fragments_iff (n : Nat) (as : List PeerEvent) :
    Transition.Along stepAny LeavesNoTrace (new n) as ↔ Transition.Along stepAny StepFits (new n) as :=
  Transition.along_iff (fun _ _ _ h htrace ht => recvInv_step h htrace ht) (fun _ e h => leavesNoTrace_iff_fits h e)
    (recvInv_new n) as

/-- The only fragment of a message of one byte, with two bytes in it. -/
def overlong : NetworkValue :=
  .bytes (stripeMagic ++ LittleEndian.encode 8 0 ++ LittleEndian.encode 8 1 ++ LittleEndian.encode 4 0 ++
    LittleEndian.encode 4 1 ++ [7, 7])

/-- It is rejected, and leaves an assembly behind that counts it, with no chunk. -/
theorem overlong_leaves_trace : ∃ s t, Transition.run stepAny (new 2) [.inject overlong, .own .call] = some s ∧
    s.stepAny (.own .recv) = some t ∧
    t.results = s.results ++ [.returned (.bail "striped MPC fragments exceed declared message length")] ∧
    s.receiver.pending 0 = none ∧
    t.receiver.pending 0 = some { totalLen := 1, chunks := [none], received := 1, receivedLen := 2 } ∧
    ¬ t.receiver.Consistent := by
  refine ⟨_, _, rfl, rfl, rfl, rfl, rfl, fun h => ?_⟩
  have hcount := (h 0 { totalLen := 1, chunks := [none], received := 1, receivedLen := 2 } rfl).received
  cases hcount

end StripedChannel

end AmpcCommon.Channel
