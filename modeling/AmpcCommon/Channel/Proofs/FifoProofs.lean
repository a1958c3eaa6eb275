import AmpcCommon.Channel.Proofs.StripingProofs
import AmpcCommon.Base.Transition
import Mathlib.Data.List.Perm.Basic

/-!
# A striped session is a reliable FIFO channel

What is on the connections or in the queue are exactly the fragments of the messages sent that the receiver still
waits for, each of them once (`ChannelInv.inFlight`, `ChannelInv.nodup`); what it waits for are the fragments of the
messages from `nextReceiveSequence` on that its assemblies do not have yet (`Due`). A fragment is taken in once, in
any order, and the message that is next is handed over as soon as it is complete.
-/

namespace AmpcCommon.Channel

open Wire

section Streams

variable {α : Type}

theorem flatten_modify_append (streams : List (List α)) {c : Nat} (hc : c < streams.length) (x : α) :
    (streams.modify c (· ++ [x])).flatten.Perm (streams.flatten ++ [x]) := by
  induction streams generalizing c with
  | nil => cases hc
  | cons stream streams ih =>
    cases c with
    | zero =>
      rw [List.modify_zero_cons, List.flatten_cons, List.flatten_cons, List.append_assoc, List.append_assoc]
      exact List.perm_append_comm.append_left stream
    | succ c =>
      rw [List.modify_succ_cons, List.flatten_cons, List.flatten_cons, List.append_assoc]
      exact (ih (Nat.lt_of_succ_lt_succ hc)).append_left stream

theorem flatten_set_tail {streams : List (List α)} {c : Nat} {x : α} {rest : List α}
    (hc : streams[c]? = some (x :: rest)) : streams.flatten.Perm (x :: (streams.set c rest).flatten) := by
  induction streams generalizing c with
  | nil => cases hc
  | cons stream streams ih =>
    cases c with
    | zero =>
      obtain rfl : stream = x :: rest := Option.some.inj hc
      exact List.Perm.refl _
    | succ c =>
      rw [List.set_cons_succ, List.flatten_cons, List.flatten_cons]
      exact ((ih hc).append_left stream).trans List.perm_middle

end Streams

namespace StripedChannel

/-- What is on its way: on the connections, or in the queue of the receiving session. -/
def inFlight (s : StripedChannel) : List NetworkValue := s.streams.flatten ++ s.inbound

theorem length_put (streams : List (List NetworkValue)) (fragments : List (Nat × NetworkValue)) :
    (put streams fragments).length = streams.length := by
  induction fragments generalizing streams with
  | nil => rfl
  | cons p fragments ih =>
    show (put (streams.modify p.1 (· ++ [p.2])) fragments).length = _
    rw [ih, List.length_modify]

theorem flatten_put (streams : List (List NetworkValue)) {fragments : List (Nat × NetworkValue)}
    (h : ∀ p ∈ fragments, p.1 < streams.length) :
    (put streams fragments).flatten.Perm (streams.flatten ++ fragments.map (·.2)) := by
  induction fragments generalizing streams with
  | nil =>
    rw [List.map_nil, List.append_nil]
    exact List.Perm.refl _
  | cons p fragments ih =>
    have hp : p.1 < streams.length := h p List.mem_cons_self
    have hrest := ih (streams.modify p.1 (· ++ [p.2])) fun q hq => by
      rw [List.length_modify]
      exact h q (List.mem_cons_of_mem _ hq)
    refine hrest.trans ?_
    have hput := (flatten_modify_append streams hp p.2).append_right (fragments.map (·.2))
    rw [List.append_assoc] at hput
    exact hput

end StripedChannel

/-- The values sent by a sequence of events. -/
theorem StripedEvent.sent_cons (e : StripedEvent) (events : List StripedEvent) :
    (e :: events).filterMap sent? = e.sent?.toList ++ events.filterMap sent? := by
  cases he : e.sent? with
  | none => exact List.filterMap_cons_none he
  | some v => exact List.filterMap_cons_some he

namespace PeerIo

variable {peer : PeerIo}

theorem takeCompleted_none
    (h : ∀ a, peer.pending peer.nextReceiveSequence = some a → a.isComplete = false) :
    peer.takeCompleted = (peer, .ok none) := by
  unfold takeCompleted
  dsimp only
  cases ha : peer.pending peer.nextReceiveSequence with
  | none => rfl
  | some a =>
    dsimp only
    rw [h a ha]
    rfl

/-- The state once the next message has been handed over. -/
def handedOver (peer : PeerIo) : PeerIo :=
  { peer with
    pending := Function.update peer.pending peer.nextReceiveSequence none
    nextReceiveSequence := peer.nextReceiveSequence + 1 }

theorem handedOver_pending {q : Nat} (hq : q ≠ peer.nextReceiveSequence) :
    peer.handedOver.pending q = peer.pending q := Function.update_of_ne hq _ _

theorem takeCompleted_some {a : Assembly} (ha : peer.pending peer.nextReceiveSequence = some a)
    (hcomplete : a.isComplete = true) (hlt : peer.nextReceiveSequence + 1 < 2 ^ 64) :
    peer.takeCompleted = (peer.handedOver, a.assemble.map some) := by
  unfold takeCompleted
  dsimp only
  rw [ha]
  dsimp only
  rw [if_neg (not_not.mpr hcomplete), if_neg (not_le.mpr hlt)]
  rfl

/-- Taking in a fragment of a message that has not been handed over. -/
theorem accept_eq {maxFragments : Nat} {value : NetworkValue} {f : Fragment} {a : Assembly}
    (hdecode : Fragment.decode value = .ok f) (hcount : f.count ≤ maxFragments)
    (hsequence : peer.nextReceiveSequence ≤ f.sequence)
    (hinsert : ((peer.pending f.sequence).getD (.new f)).insert f = (a, .ok ())) :
    peer.accept maxFragments value =
      ({ peer with pending := Function.update peer.pending f.sequence (some a) }, .ok ()) := by
  unfold accept
  rw [hdecode]
  dsimp only
  rw [if_neg (not_lt.mpr hcount), if_neg (not_lt.mpr hsequence), hinsert]

end PeerIo

/-- The fragment is one of a message the receiver has not handed over yet, and has not arrived. -/
def Due (n : Nat) (msgs : List Message) (next : Nat) (got : Nat → Finset Nat) (f : Fragment) : Prop :=
  next ≤ f.sequence ∧ f.index ∉ got f.sequence ∧ ∃ m, msgs[f.sequence]? = some m ∧
    f.index < stripeCount n m.bytes ∧ f = fragment n f.sequence m.bytes f.index

/-- The invariant of a channel over `n` connections that the messages `msgs` have been sent over; `got q` are the
indices of the fragments of message `q` that have arrived. -/
structure ChannelInv (n : Nat) (msgs : List Message) (got : Nat → Finset Nat) (s : StripedChannel) : Prop where
  sender : s.sender.connections = n ∧ s.sender.nextSendSequence = msgs.length
  receiver : s.receiver.connections = n ∧ s.maxFragments = n
  streams : s.streams.length = n
  sent : s.sent = msgs.map fun m => (m.value, .ok ())
  next_le : s.receiver.nextReceiveSequence ≤ msgs.length
  nodup : (s.inFlight.map Fragment.decode).Nodup
  inFlight : ∀ r, r ∈ s.inFlight.map Fragment.decode ↔
    ∃ f, r = .ok f ∧ Due n msgs s.receiver.nextReceiveSequence got f
  pending : ∀ q, s.receiver.nextReceiveSequence ≤ q → (s.receiver.pending q = none ∧ got q = ∅) ∨
    ∃ a m, s.receiver.pending q = some a ∧ msgs[q]? = some m ∧ AssemblyInv n m.bytes (got q) a
  results : s.results.filterMap ReceiveResult.returned? =
    (msgs.take s.receiver.nextReceiveSequence).map fun m => .ok m.received
  carried : ∀ v ∈ s.streams.flatten, StripedChannel.transport v = .ok v

/-- A call that waits does so because the next message is not complete. -/
def Waits (s : StripedChannel) : Prop :=
  s.receiving = true → ∀ a, s.receiver.pending s.receiver.nextReceiveSequence = some a → a.isComplete = false

/-- What is still due when a fragment has arrived. -/
theorem due_update {n : Nat} {msgs : List Message} {next : Nat} {got : Nat → Finset Nat} {f : Fragment}
    (hf : Due n msgs next got f) (g : Fragment) :
    Due n msgs next (Function.update got f.sequence (insert f.index (got f.sequence))) g ↔
      Due n msgs next got g ∧ g ≠ f := by
  obtain ⟨-, -, m, hm, -, hfrag⟩ := hf
  unfold Due
  by_cases hseq : g.sequence = f.sequence
  · rw [hseq, Function.update_self, Finset.mem_insert, not_or]
    constructor
    · rintro ⟨hnext, ⟨hindex, hnew⟩, hg⟩
      refine ⟨⟨hnext, hnew, hg⟩, ?_⟩
      rintro rfl
      exact hindex rfl
    · rintro ⟨⟨hnext, hnew, m', hm', hlt, hg⟩, hne⟩
      refine ⟨hnext, ⟨fun hindex => hne ?_, hnew⟩, m', hm', hlt, hg⟩
      rw [hm] at hm'
      obtain rfl := Option.some.inj hm'
      rw [hg, hindex]
      exact hfrag.symm
  · rw [Function.update_of_ne hseq]
    constructor
    · intro hg
      refine ⟨hg, ?_⟩
      rintro rfl
      exact hseq rfl
    · rintro ⟨hg, -⟩
      exact hg

namespace ChannelInv

variable {n : Nat} {msgs : List Message} {got : Nat → Finset Nat} {s : StripedChannel}

theorem new (n : Nat) : ChannelInv n [] (fun _ => ∅) (.new n) where
  sender := ⟨rfl, rfl⟩
  receiver := ⟨rfl, rfl⟩
  streams := List.length_replicate
  sent := rfl
  next_le := Nat.le_refl _
  nodup := by
    unfold StripedChannel.inFlight StripedChannel.new
    rw [List.flatten_replicate_nil]
    exact List.nodup_nil
  inFlight := by
    intro r
    unfold StripedChannel.inFlight StripedChannel.new
    rw [List.flatten_replicate_nil]
    constructor
    · intro hr
      cases hr
    · rintro ⟨f, -, -, -, m, hm, -⟩
      cases hm
  pending := fun q _ => Or.inl ⟨rfl, rfl⟩
  results := rfl
  carried := by
    intro v hv
    unfold StripedChannel.new at hv
    rw [List.flatten_replicate_nil] at hv
    cases hv

/-- A channel in which only the place of what is in flight differs. -/
theorem of_perm (h : ChannelInv n msgs got s) {streams : List (List NetworkValue)} {inbound : List NetworkValue}
    (hlen : streams.length = n) (hperm : (streams.flatten ++ inbound).Perm s.inFlight)
    (hsub : ∀ v ∈ streams.flatten, v ∈ s.streams.flatten) :
    ChannelInv n msgs got { s with streams, inbound } where
  sender := h.sender
  receiver := h.receiver
  streams := hlen
  sent := h.sent
  next_le := h.next_le
  nodup := (hperm.map Fragment.decode).nodup_iff.mpr h.nodup
  inFlight := fun r => (hperm.map Fragment.decode).mem_iff.trans (h.inFlight r)
  pending := h.pending
  results := h.results
  carried := fun v hv => h.carried v (hsub v hv)

/-- A call that ends with a timeout leaves everything as it is. -/
theorem timeout (h : ChannelInv n msgs got s) : ChannelInv n msgs got (s.finish .timeout) where
  sender := h.sender
  receiver := h.receiver
  streams := h.streams
  sent := h.sent
  next_le := h.next_le
  nodup := h.nodup
  inFlight := h.inFlight
  pending := h.pending
  results := by
    show (s.results ++ [ReceiveResult.timeout]).filterMap _ = _
    rw [List.filterMap_append, h.results]
    exact List.append_nil _
  carried := h.carried

/-- A message that has been sent in full is due. -/
theorem due_append (h : ChannelInv n msgs got s) (m : Message) (f : Fragment) :
    Due n (msgs ++ [m]) s.receiver.nextReceiveSequence got f ↔
      Due n msgs s.receiver.nextReceiveSequence got f ∨
        ∃ i, i < stripeCount n m.bytes ∧ f = fragment n msgs.length m.bytes i := by
  constructor
  · rintro ⟨hnext, hgot, m', hm', hindex, hf⟩
    by_cases hlast : f.sequence < msgs.length
    · rw [List.getElem?_append_left hlast] at hm'
      exact Or.inl ⟨hnext, hgot, m', hm', hindex, hf⟩
    · have hseq : f.sequence = msgs.length := by
        have := (List.getElem?_eq_some_iff.mp hm').1
        rw [List.length_append, List.length_singleton] at this
        omega
      rw [hseq, List.getElem?_concat_length] at hm'
      obtain rfl := Option.some.inj hm'
      rw [hseq] at hf
      exact Or.inr ⟨f.index, hindex, hf⟩
  · rintro (⟨hnext, hgot, m', hm', hindex, hf⟩ | ⟨i, hi, rfl⟩)
    · have hlt : f.sequence < msgs.length := (List.getElem?_eq_some_iff.mp hm').1
      exact ⟨hnext, hgot, m', (List.getElem?_append_left hlt).trans hm', hindex, hf⟩
    · have hempty : got msgs.length = ∅ := by
        obtain ⟨-, hgot⟩ | ⟨a, m', -, hm', -⟩ := h.pending msgs.length h.next_le
        · exact hgot
        · rw [List.getElem?_eq_none (Nat.le_refl _)] at hm'
          cases hm'
      refine ⟨h.next_le, ?_, m, List.getElem?_concat_length, hi, rfl⟩
      show i ∉ got msgs.length
      rw [hempty]
      exact Finset.notMem_empty i

/-- Sending a message puts its fragments in flight. -/
theorem send (h : ChannelInv n msgs got s) (hn : 2 ≤ n) (hlen : msgs.length + 1 < 2 ^ 64) (m : Message) :
    ∃ t, s.step (.send m.value) = some t ∧ t.receiver = s.receiver ∧ t.receiving = s.receiving ∧
      ChannelInv n (msgs ++ [m]) got t := by
  obtain ⟨hconnections, hnext⟩ := h.sender
  have hsend : s.sender.send m.value = _ := m.send_eq (by omega) (by omega)
  rw [hconnections, hnext] at hsend
  have hstep : s.step (.send m.value) = some { s with
      sender := { s.sender with connections := n, nextSendSequence := msgs.length + 1 }
      streams := StripedChannel.put s.streams (m.fragments n msgs.length)
      sent := s.sent ++ [(m.value, .ok ())] } := by
    unfold StripedChannel.step
    dsimp only
    rw [hsend]
  refine ⟨_, hstep, rfl, rfl, ?_⟩
  have hcount : ∀ p ∈ m.fragments n msgs.length, p.1 < s.streams.length := by
    intro p hp
    obtain ⟨i, -, rfl⟩ := List.mem_map.mp hp
    rw [h.streams]
    exact Nat.mod_lt _ (by omega)
  -- what is in flight decodes to what was, and the new fragments
  have hwires : (m.fragments n msgs.length).map (Fragment.decode ∘ fun p => p.2) =
      (List.range (stripeCount n m.bytes)).map fun i => .ok (fragment n msgs.length m.bytes i) := by
    unfold Message.fragments
    rw [List.map_map]
    refine List.map_congr_left fun i hi => ?_
    exact Fragment.decode_wire
      (fragment_wellFormed (Nat.lt_of_succ_lt hlen) m.bytes_ne_nil m.length_bytes_lt (List.mem_range.mp hi))
  have hplaces : ((StripedChannel.put s.streams (m.fragments n msgs.length)).flatten ++ s.inbound).Perm
      (s.inFlight ++ (m.fragments n msgs.length).map fun p => p.2) := by
    refine ((StripedChannel.flatten_put s.streams hcount).append_right s.inbound).trans ?_
    unfold StripedChannel.inFlight
    rw [List.append_assoc, List.append_assoc]
    exact List.perm_append_comm.append_left _
  have hperm := hplaces.map Fragment.decode
  have hmap : (s.inFlight ++ (m.fragments n msgs.length).map fun p => p.2).map Fragment.decode =
      s.inFlight.map Fragment.decode ++
        (List.range (stripeCount n m.bytes)).map fun i => .ok (fragment n msgs.length m.bytes i) := by
    rw [List.map_append, List.map_map, hwires]
  rw [hmap] at hperm
  refine ⟨⟨rfl, by simp⟩, h.receiver, (StripedChannel.length_put _ _).trans h.streams,
    ?_, ?_, ?_, ?_, ?_, ?_, ?_⟩
  · show s.sent ++ _ = _
    rw [h.sent, List.map_append]
    rfl
  · rw [List.length_append]
    exact h.next_le.trans (Nat.le_add_right _ _)
  · refine hperm.nodup_iff.mpr (List.nodup_append.mpr ⟨h.nodup, ?_, ?_⟩)
    · refine List.Nodup.map ?_ List.nodup_range
      intro i j hij
      exact congrArg Fragment.index (Except.ok.inj hij)
    · rintro r hr r' hr' rfl
      obtain ⟨f, hf, -, -, m', hm', -⟩ := (h.inFlight r).mp hr
      obtain ⟨i, -, hi⟩ := List.mem_map.mp hr'
      rw [hf] at hi
      have hseq : msgs.length = f.sequence := congrArg Fragment.sequence (Except.ok.inj hi)
      exact absurd (List.getElem?_eq_some_iff.mp hm').1 (by omega)
  · intro r
    refine hperm.mem_iff.trans (List.mem_append.trans ?_)
    rw [h.inFlight, List.mem_map]
    constructor
    · rintro (⟨f, hr, hf⟩ | ⟨i, hi, hr⟩)
      · exact ⟨f, hr, (h.due_append m f).mpr (Or.inl hf)⟩
      · exact ⟨_, hr.symm, (h.due_append m _).mpr (Or.inr ⟨i, List.mem_range.mp hi, rfl⟩)⟩
    · rintro ⟨f, hr, hf⟩
      obtain hf | ⟨i, hi, rfl⟩ := (h.due_append m f).mp hf
      · exact Or.inl ⟨f, hr, hf⟩
      · exact Or.inr ⟨i, List.mem_range.mpr hi, hr.symm⟩
  · intro q hq
    obtain hnone | ⟨a, m', ha, hm', hinv⟩ := h.pending q hq
    · exact Or.inl hnone
    · have hlt : q < msgs.length := (List.getElem?_eq_some_iff.mp hm').1
      exact Or.inr ⟨a, m', ha, (List.getElem?_append_left hlt).trans hm', hinv⟩
  · show s.results.filterMap _ = ((msgs ++ [m]).take s.receiver.nextReceiveSequence).map _
    rw [List.take_append_of_le_length h.next_le]
    exact h.results
  · intro v hv
    obtain hv | hv := List.mem_append.mp ((StripedChannel.flatten_put s.streams hcount).mem_iff.mp hv)
    · exact h.carried v hv
    · obtain ⟨p, hp, rfl⟩ := List.mem_map.mp hv
      obtain ⟨i, hi, rfl⟩ := List.mem_map.mp hp
      exact Fragment.transport_wire (length_stripe_lt hn m.length_bytes_lt (List.mem_range.mp hi))

/-- At the top of its loop, `receive` hands over the next message if it is complete. -/
theorem poll_complete (h : ChannelInv n msgs got s) (hn : 2 ≤ n) (hlen : msgs.length < 2 ^ 64) {a : Assembly}
    (ha : s.receiver.pending s.receiver.nextReceiveSequence = some a) (hcomplete : a.isComplete = true) :
    ∃ m, msgs[s.receiver.nextReceiveSequence]? = some m ∧
      s.poll = { s with receiver := s.receiver.handedOver }.finish (.returned (.ok m.received)) ∧
      ChannelInv n msgs got s.poll := by
  obtain ⟨hnone, -⟩ | ⟨a', m, ha', hm, hinv⟩ := h.pending _ (Nat.le_refl _)
  · rw [ha] at hnone
    cases hnone
  rw [ha] at ha'
  obtain rfl := Option.some.inj ha'
  have hlt : s.receiver.nextReceiveSequence < msgs.length := (List.getElem?_eq_some_iff.mp hm).1
  have htake := PeerIo.takeCompleted_some ha hcomplete (by omega)
  rw [hinv.assemble (by omega) hcomplete, m.deserialize_eq] at htake
  have hpoll : s.poll = { s with receiver := s.receiver.handedOver }.finish (.returned (.ok m.received)) := by
    unfold StripedChannel.poll
    rw [htake]
    rfl
  refine ⟨m, hm, hpoll, ?_⟩
  rw [hpoll]
  -- no fragment of the message is in flight any more
  have hdue : ∀ f, Due n msgs s.receiver.nextReceiveSequence got f ↔
      Due n msgs (s.receiver.nextReceiveSequence + 1) got f := by
    intro f
    constructor
    · rintro ⟨hnext, hnew, m', hm', hindex, hf⟩
      refine ⟨Nat.lt_of_le_of_ne hnext fun heq => hnew ?_, hnew, m', hm', hindex, hf⟩
      rw [← heq] at hm' ⊢
      rw [hm] at hm'
      obtain rfl := Option.some.inj hm'
      rw [hinv.isComplete_iff.mp hcomplete]
      exact Finset.mem_range.mpr hindex
    · rintro ⟨hnext, hrest⟩
      exact ⟨Nat.le_of_succ_le hnext, hrest⟩
  refine ⟨h.sender, h.receiver, h.streams, h.sent, hlt, h.nodup, ?_, ?_, ?_, h.carried⟩
  · intro r
    refine (h.inFlight r).trans (exists_congr fun f => and_congr_right fun _ => hdue f)
  · intro q hq
    have hne : q ≠ s.receiver.nextReceiveSequence := Nat.ne_of_gt hq
    show (s.receiver.handedOver.pending q = none ∧ _) ∨ ∃ a m, s.receiver.handedOver.pending q = some a ∧ _
    rw [PeerIo.handedOver_pending hne]
    exact h.pending q (Nat.le_of_succ_le hq)
  · show (s.results ++ [ReceiveResult.returned (.ok m.received)]).filterMap _ =
      (msgs.take (s.receiver.nextReceiveSequence + 1)).map _
    rw [List.filterMap_append, h.results, List.take_add_one, hm]
    simp [ReceiveResult.returned?]

/-- At the top of its loop, `receive` waits if the next message is not complete. -/
theorem poll_incomplete (h : ChannelInv n msgs got s)
    (hincomplete : ∀ a, s.receiver.pending s.receiver.nextReceiveSequence = some a → a.isComplete = false) :
    s.poll = { s with receiving := true } ∧ ChannelInv n msgs got s.poll := by
  have hpoll : s.poll = { s with receiving := true } := by
    unfold StripedChannel.poll
    rw [PeerIo.takeCompleted_none hincomplete]
  refine ⟨hpoll, ?_⟩
  rw [hpoll]
  exact ⟨h.sender, h.receiver, h.streams, h.sent, h.next_le, h.nodup, h.inFlight, h.pending, h.results,
    h.carried⟩

theorem poll (h : ChannelInv n msgs got s) (hn : 2 ≤ n) (hlen : msgs.length < 2 ^ 64) :
    ChannelInv n msgs got s.poll ∧ Waits s.poll := by
  by_cases hcomplete : ∃ a, s.receiver.pending s.receiver.nextReceiveSequence = some a ∧ a.isComplete = true
  · obtain ⟨a, ha, hcomplete⟩ := hcomplete
    obtain ⟨m, -, hpoll, hinv⟩ := h.poll_complete hn hlen ha hcomplete
    refine ⟨hinv, fun hreceiving => ?_⟩
    rw [hpoll] at hreceiving
    cases hreceiving
  · have hincomplete : ∀ a, s.receiver.pending s.receiver.nextReceiveSequence = some a → a.isComplete = false := by
      intro a ha
      exact Bool.eq_false_iff.mpr fun hc => hcomplete ⟨a, ha, hc⟩
    obtain ⟨hpoll, hinv⟩ := h.poll_incomplete hincomplete
    refine ⟨hinv, fun _ => ?_⟩
    rw [hpoll]
    exact hincomplete

/-- The waiting call takes a fragment in and goes on. -/
theorem recv (h : ChannelInv n msgs got s) (hn : 2 ≤ n) (hlen : msgs.length < 2 ^ 64) {t : StripedChannel}
    (hstep : s.step .recv = some t) : ∃ got', ChannelInv n msgs got' t ∧ Waits t := by
  unfold StripedChannel.step at hstep
  dsimp only at hstep
  split at hstep
  next value rest hreceiving hinbound =>
    have h1 : ¬ s.receiver.connections = 1 := by
      rw [h.receiver.1]
      omega
    rw [if_neg h1] at hstep
    -- the value is the wire format of a fragment that is due
    have hperm : s.inFlight.Perm (value :: (s.streams.flatten ++ rest)) := by
      unfold StripedChannel.inFlight
      rw [hinbound]
      exact List.perm_middle
    have hmap := hperm.map Fragment.decode
    rw [List.map_cons] at hmap
    obtain ⟨f, hdecode, hnext, hnew, m, hm, hindex, hf⟩ :=
      (h.inFlight _).mp (hmap.mem_iff.mpr List.mem_cons_self)
    have hcount : f.count ≤ s.maxFragments := by
      rw [hf, h.receiver.2]
      exact stripeCount_le
    have hassembly : AssemblyInv n m.bytes (got f.sequence) ((s.receiver.pending f.sequence).getD (.new f)) := by
      obtain ⟨hnone, hempty⟩ | ⟨a, m', ha, hm', hinv⟩ := h.pending _ hnext
      · rw [hnone, hempty, hf]
        exact AssemblyInv.new n f.sequence m.bytes f.index
      · rw [hm] at hm'
        obtain rfl := Option.some.inj hm'
        rw [ha]
        exact hinv
    obtain ⟨a, hinsert, hinv⟩ := hassembly.insert f.sequence (by omega) hindex hnew
    rw [← hf] at hinsert
    rw [PeerIo.accept_eq hdecode hcount hnext hinsert] at hstep
    obtain rfl := Option.some.inj hstep
    have hnodup := hmap.nodup_iff.mp h.nodup
    rw [List.nodup_cons] at hnodup
    refine ⟨Function.update got f.sequence (insert f.index (got f.sequence)), ?_⟩
    refine poll ⟨h.sender, h.receiver, h.streams, h.sent, h.next_le, hnodup.2, ?_, ?_, h.results, h.carried⟩ hn
      hlen
    · intro r
      have hdue := due_update ⟨hnext, hnew, m, hm, hindex, hf⟩
      refine Iff.trans ?_ (exists_congr fun g => and_congr_right fun _ => (hdue g).symm)
      rw [hdecode] at hmap hnodup
      constructor
      · intro hr
        obtain ⟨g, hg, hdue⟩ := (h.inFlight r).mp (hmap.mem_iff.mpr (List.mem_cons_of_mem _ hr))
        refine ⟨g, hg, hdue, ?_⟩
        rintro rfl
        exact hnodup.1 (hg ▸ hr)
      · rintro ⟨g, rfl, hdue, hne⟩
        obtain hg | hg := List.mem_cons.mp (hmap.mem_iff.mp ((h.inFlight _).mpr ⟨g, rfl, hdue⟩))
        · exact absurd (Except.ok.inj hg) hne
        · exact hg
    · intro q hq
      by_cases hqf : q = f.sequence
      · subst hqf
        refine Or.inr ⟨a, m, Function.update_self _ _ _, hm, ?_⟩
        rw [Function.update_self]
        exact hinv
      · rw [Function.update_of_ne hqf]
        show (Function.update s.receiver.pending f.sequence (some a) q = none ∧ _) ∨
          ∃ a', ∃ m, Function.update s.receiver.pending f.sequence (some a) q = some a' ∧ _
        rw [Function.update_of_ne hqf]
        exact h.pending q hq
  next => cases hstep

theorem arrive (h : ChannelInv n msgs got s) {c : Nat} {t : StripedChannel} (hstep : s.step (.arrive c) = some t) :
    ChannelInv n msgs got t ∧ t.receiving = s.receiving ∧ t.receiver = s.receiver := by
  unfold StripedChannel.step at hstep
  dsimp only at hstep
  split at hstep
  next value rest hc =>
    have hperm := flatten_set_tail hc
    rw [h.carried value (hperm.mem_iff.mpr List.mem_cons_self)] at hstep
    obtain rfl := Option.some.inj hstep
    refine ⟨h.of_perm ((List.length_set ..).trans h.streams) ?_ ?_, rfl, rfl⟩
    · unfold StripedChannel.inFlight
      refine List.Perm.trans ?_ (hperm.symm.append_right s.inbound)
      rw [← List.append_assoc]
      exact List.perm_append_comm
    · intro v hv
      exact hperm.mem_iff.mpr (List.mem_cons_of_mem _ hv)
  next => cases hstep

/-- The oldest value on a connection can always arrive. -/
theorem arrive_isSome (h : ChannelInv n msgs got s) {c : Nat} {value : NetworkValue} {rest : List NetworkValue}
    (hc : s.streams[c]? = some (value :: rest)) : (s.step (.arrive c)).isSome = true := by
  unfold StripedChannel.step
  dsimp only
  rw [hc]
  dsimp only
  rw [h.carried value ((flatten_set_tail hc).mem_iff.mpr List.mem_cons_self)]
  rfl

/-- Every step keeps the invariant. -/
theorem step (h : ChannelInv n msgs got s) (hwaits : Waits s) (hn : 2 ≤ n) {e : StripedEvent} {t : StripedChannel}
    (hstep : s.step e = some t) (hround : ∀ v ∈ e.sent?, (StripedChannel.transport v).Succeeds)
    (hlen : msgs.length + e.sent?.toList.length < 2 ^ 64) :
    ∃ msgs' got', ChannelInv n msgs' got' t ∧ Waits t ∧
      msgs'.map Message.value = msgs.map Message.value ++ e.sent?.toList := by
  cases e with
  | send value =>
    obtain ⟨received, hreceived⟩ := hround value rfl
    obtain ⟨bytes, hbytes, hvalue⟩ := Outcome.bind_eq_ok.mp hreceived
    let m : Message := ⟨value, bytes, received, hbytes, hvalue⟩
    obtain ⟨t', ht', hreceiver, hreceiving, hinv⟩ := h.send hn hlen m
    rw [hstep] at ht'
    obtain rfl := Option.some.inj ht'
    refine ⟨msgs ++ [m], got, hinv, ?_, List.map_append⟩
    unfold Waits
    rw [hreceiver, hreceiving]
    exact hwaits
  | arrive c =>
    obtain ⟨hinv, hreceiving, hreceiver⟩ := h.arrive hstep
    refine ⟨msgs, got, hinv, ?_, (List.append_nil _).symm⟩
    unfold Waits
    rw [hreceiver, hreceiving]
    exact hwaits
  | call =>
    have h1 : ¬ s.receiver.connections = 1 := by
      rw [h.receiver.1]
      omega
    unfold StripedChannel.step at hstep
    dsimp only at hstep
    rw [if_neg h1] at hstep
    split_ifs at hstep
    obtain rfl := Option.some.inj hstep
    obtain ⟨hinv, hw⟩ := h.poll hn hlen
    exact ⟨msgs, got, hinv, hw, (List.append_nil _).symm⟩
  | recv =>
    obtain ⟨got', hinv, hw⟩ := h.recv hn hlen hstep
    exact ⟨msgs, got', hinv, hw, (List.append_nil _).symm⟩
  | timeout =>
    unfold StripedChannel.step at hstep
    dsimp only at hstep
    split_ifs at hstep
    obtain rfl := Option.some.inj hstep
    refine ⟨msgs, got, h.timeout, ?_, (List.append_nil _).symm⟩
    intro hreceiving
    cases hreceiving

theorem run (h : ChannelInv n msgs got s) (hwaits : Waits s) (hn : 2 ≤ n) {events : List StripedEvent}
    {t : StripedChannel} (hrun : Transition.run StripedChannel.step s events = some t)
    (hround : ∀ v ∈ events.filterMap StripedEvent.sent?, (StripedChannel.transport v).Succeeds)
    (hlen : msgs.length + (events.filterMap StripedEvent.sent?).length < 2 ^ 64) :
    ∃ msgs' got', ChannelInv n msgs' got' t ∧ Waits t ∧
      msgs'.map Message.value = msgs.map Message.value ++ events.filterMap StripedEvent.sent? := by
  induction events generalizing s msgs got with
  | nil =>
    cases hrun
    exact ⟨msgs, got, h, hwaits, (List.append_nil _).symm⟩
  | cons e events ih =>
    rw [StripedEvent.sent_cons] at hround hlen ⊢
    rw [List.length_append] at hlen
    obtain ⟨u, hu, hrest⟩ := Option.bind_eq_some_iff.mp hrun
    obtain ⟨msgs', got', hinv, hw, hvalues⟩ := h.step hwaits hn hu
      (fun v hv => hround v (List.mem_append_left _ (Option.mem_toList.mpr hv))) (by omega)
    have hlen' : msgs'.length = msgs.length + e.sent?.toList.length := by
      have := congrArg List.length hvalues
      rwa [List.length_map, List.length_append, List.length_map] at this
    obtain ⟨msgs'', got'', hinv', hw', hvalues'⟩ := ih hinv hw hrest
      (fun v hv => hround v (List.mem_append_right _ hv)) (by omega)
    exact ⟨msgs'', got'', hinv', hw', by rw [hvalues', hvalues, List.append_assoc]⟩

/-- When nothing is in flight, the next message is complete. -/
theorem complete_of_inFlight_nil (h : ChannelInv n msgs got s) (hn : 0 < n) (hempty : s.inFlight = [])
    (hlt : s.receiver.nextReceiveSequence < msgs.length) :
    ∃ a, s.receiver.pending s.receiver.nextReceiveSequence = some a ∧ a.isComplete = true := by
  have hgot : ∀ m, msgs[s.receiver.nextReceiveSequence]? = some m → ∀ i < stripeCount n m.bytes,
      i ∈ got s.receiver.nextReceiveSequence := by
    intro m hm i hi
    by_contra hnew
    have hdue := (h.inFlight (.ok (fragment n s.receiver.nextReceiveSequence m.bytes i))).mpr
      ⟨_, rfl, Nat.le_refl _, hnew, m, hm, hi, rfl⟩
    rw [hempty] at hdue
    cases hdue
  have hm := List.getElem?_eq_getElem hlt
  obtain ⟨-, hnone⟩ | ⟨a, m, ha, hm', hinv⟩ := h.pending _ (Nat.le_refl _)
  · have hfirst := hgot _ hm 0 (stripeCount_pos hn)
    rw [hnone] at hfirst
    exact absurd hfirst (Finset.notMem_empty 0)
  · refine ⟨a, ha, hinv.isComplete_iff.mpr (Finset.Subset.antisymm hinv.subset ?_)⟩
    intro i hi
    exact hgot m hm' i (Finset.mem_range.mp hi)

end ChannelInv

/-- What has become of the values sent: every send has succeeded, the calls of `receive` that have not timed out have
returned the first of `received`, in order, and whatever is on a connection can arrive. When nothing is on its way
any more, a call that waits has nothing left to wait for, and a new call returns the next one. -/
structure Delivers (values : List NetworkValue) (received : List (Outcome NetworkValue)) (t : StripedChannel) :
    Prop where
  sent : t.sent = values.map fun v => (v, .ok ())
  arrives : ∀ c value rest, t.streams[c]? = some (value :: rest) → (t.step (.arrive c)).isSome = true
  returns : ∃ k ≤ values.length, t.results.filterMap ReceiveResult.returned? = received.take k ∧
    (t.streams.flatten = [] → t.inbound = [] → (t.receiving = true → k = values.length) ∧
      (t.receiving = false → ∃ u, t.step .call = some u ∧
        (∀ r, received[k]? = some r → u.results = t.results ++ [.returned r] ∧ u.receiving = false) ∧
        (k = values.length → u.results = t.results ∧ u.receiving = true)))

theorem stripedChannel_delivers {n : Nat} (hn : 2 ≤ n) {events : List StripedEvent}
    (hround : ∀ v ∈ events.filterMap StripedEvent.sent?, (StripedChannel.transport v).Succeeds)
    (hlen : (events.filterMap StripedEvent.sent?).length < 2 ^ 64) {t : StripedChannel}
    (hrun : Transition.run StripedChannel.step (.new n) events = some t) :
    Delivers (events.filterMap StripedEvent.sent?)
      ((events.filterMap StripedEvent.sent?).map StripedChannel.transport) t := by
  have hwaits : Waits (.new n) := fun hreceiving => by cases hreceiving
  obtain ⟨msgs, got, h, hw, hmsgs⟩ := (ChannelInv.new n).run hwaits hn hrun hround (by simpa using hlen)
  rw [List.map_nil, List.nil_append] at hmsgs
  have hmsgslen : msgs.length = (events.filterMap StripedEvent.sent?).length := by
    rw [← hmsgs, List.length_map]
  have hreceived : (events.filterMap StripedEvent.sent?).map StripedChannel.transport =
      msgs.map fun m => .ok m.received := by
    rw [← hmsgs, List.map_map]
    exact List.map_congr_left fun m _ => Outcome.bind_eq_ok.mpr ⟨_, m.toNetwork_eq, m.deserialize_eq⟩
  rw [hreceived]
  refine ⟨?_, fun c value rest => h.arrive_isSome, t.receiver.nextReceiveSequence, hmsgslen ▸ h.next_le, ?_, ?_⟩
  · rw [h.sent, ← hmsgs, List.map_map]
    rfl
  · rw [h.results, List.map_take]
  · intro hstreams hinbound
    have hempty : t.inFlight = [] := by
      unfold StripedChannel.inFlight
      rw [hstreams, hinbound]
      rfl
    have hcomplete := h.complete_of_inFlight_nil (by omega) hempty
    constructor
    · intro hreceiving
      by_contra hne
      obtain ⟨a, ha, hc⟩ := hcomplete (lt_of_le_of_ne h.next_le (hmsgslen ▸ hne))
      rw [hw hreceiving a ha] at hc
      cases hc
    · intro hreceiving
      have hcall : t.step .call = some t.poll := by
        have h1 : ¬ t.receiver.connections = 1 := by
          rw [h.receiver.1]
          omega
        unfold StripedChannel.step
        dsimp only
        rw [if_neg h1, hreceiving]
        rfl
      refine ⟨t.poll, hcall, ?_, ?_⟩
      · intro r hr
        have hlt : t.receiver.nextReceiveSequence < msgs.length := by
          have := (List.getElem?_eq_some_iff.mp hr).1
          rwa [List.length_map] at this
        obtain ⟨a, ha, hc⟩ := hcomplete hlt
        obtain ⟨m, hm, hpoll, -⟩ := h.poll_complete hn (hmsgslen ▸ hlen) ha hc
        rw [List.getElem?_map, hm] at hr
        obtain rfl := Option.some.inj hr
        rw [hpoll]
        exact ⟨rfl, rfl⟩
      · intro hall
        have hincomplete : ∀ a, t.receiver.pending t.receiver.nextReceiveSequence = some a →
            a.isComplete = false := by
          intro a ha
          obtain ⟨hnone, -⟩ | ⟨a', m, -, hm, -⟩ := h.pending _ (Nat.le_refl _)
          · rw [hnone] at ha
            cases ha
          · exact absurd (List.getElem?_eq_some_iff.mp hm).1 (by omega)
        rw [(h.poll_incomplete hincomplete).1]
        exact ⟨rfl, rfl⟩

/-- **A striped session is a reliable FIFO channel.** In every run of a channel over two or more connections, every
send succeeds, and the calls of `receive` that have not timed out have returned the first values sent, in order.
Whatever is on a connection can arrive, and when nothing is on its way any more, a call that waits has nothing left
to wait for, and a new call returns the next value. -/
theorem stripedChannel_fifo (n : Nat) (hn : 2 ≤ n) (events : List StripedEvent) (values : List NetworkValue)
    (hvalues : events.filterMap StripedEvent.sent? = values)
    (hround : ∀ v ∈ values, (v.toNetwork >>= NetworkValue.deserialize) = .ok v) (hlen : values.length < 2 ^ 64)
    (t : StripedChannel) (hrun : Transition.run StripedChannel.step (.new n) events = some t) :
    t.sent = values.map (fun v => (v, .ok ())) ∧
    (∀ c value rest, t.streams[c]? = some (value :: rest) → (t.step (.arrive c)).isSome = true) ∧
    ∃ k ≤ values.length, t.results.filterMap ReceiveResult.returned? = (values.take k).map .ok ∧
      (t.streams.flatten = [] → t.inbound = [] → (t.receiving = true → k = values.length) ∧
        (t.receiving = false → ∃ u, t.step .call = some u ∧
          (∀ v, values[k]? = some v → u.results = t.results ++ [.returned (.ok v)] ∧ u.receiving = false) ∧
          (k = values.length → u.results = t.results ∧ u.receiving = true))) := by
  subst hvalues
  have hdelivers := stripedChannel_delivers hn (fun v hv => ⟨v, hround v hv⟩) hlen hrun
  have hreceived : (events.filterMap StripedEvent.sent?).map StripedChannel.transport =
      (events.filterMap StripedEvent.sent?).map .ok := List.map_congr_left hround
  rw [hreceived] at hdelivers
  obtain ⟨k, hk, hresults, hempty⟩ := hdelivers.returns
  refine ⟨hdelivers.sent, hdelivers.arrives, k, hk, ?_, ?_⟩
  · rw [hresults, List.map_take]
  · intro hstreams hinbound
    obtain ⟨hwaiting, hidle⟩ := hempty hstreams hinbound
    refine ⟨hwaiting, fun hreceiving => ?_⟩
    obtain ⟨u, hu, hnext, hall⟩ := hidle hreceiving
    refine ⟨u, hu, ?_, hall⟩
    intro v hv
    exact hnext (.ok v) (by rw [List.getElem?_map, hv]; rfl)

/-- Two messages; the second one arrives first, while a call waits that then times out. -/
def overtaking : List StripedEvent :=
  [.send (.ringElement16 5), .send (.bytes [1, 2, 3]), .arrive 1, .call, .recv, .timeout, .arrive 0, .call, .recv]

theorem stripedChannel_fifo_overtaking :
    ∃ t, Transition.run StripedChannel.step (.new 2) overtaking = some t ∧
      t.sent = [(.ringElement16 5, .ok ()), (.bytes [1, 2, 3], .ok ())] ∧
      ∃ k ≤ 2, t.results.filterMap ReceiveResult.returned? =
        ([.ringElement16 5, .bytes [1, 2, 3]].take k).map .ok := by
  have hrun : (Transition.run StripedChannel.step (.new 2) overtaking).isSome = true := by decide
  obtain ⟨t, ht⟩ := Option.isSome_iff_exists.mp hrun
  have hround : ∀ v ∈ ([.ringElement16 5, .bytes [1, 2, 3]] : List NetworkValue),
      (v.toNetwork >>= NetworkValue.deserialize) = .ok v := by
    simp only [List.forall_mem_cons]
    exact ⟨rfl, rfl, fun _ h => absurd h List.not_mem_nil⟩
  obtain ⟨hsent, -, k, hk, hresults, -⟩ :=
    stripedChannel_fifo 2 (by decide) overtaking _ rfl hround (by decide) t ht
  exact ⟨t, ht, hsent, k, hk, hresults⟩

end AmpcCommon.Channel
