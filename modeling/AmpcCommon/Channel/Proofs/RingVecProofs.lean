import AmpcCommon.Channel.RingVec
import AmpcCommon.Channel.Proofs.FifoProofs
import Mathlib.Data.BitVec

/-!
# The pre-framed fast path changes nothing observable

The message of a vector has the bytes of the owned variant (`toNetwork_sendRingVec`), so it is carried as the owned
variant is, over one connection or over many.
-/

namespace AmpcCommon.Channel

open Wire NetworkValue

namespace NetworkInt

/-- The elements that survive the wire: a `Ring48` has 48 bits. -/
def Canonical : (T : NetworkInt) → T.Elem → Prop
  | ring48, x => x.val.toNat < 2 ^ 48
  | u16, _ => True
  | u32, _ => True
  | u64, _ => True

variable {T : NetworkInt} {data : List T.Elem}

/-- The owned message of a vector of canonical elements whose length field fits in 32 bits. -/
theorem flatSendable_ownedMessage (hcan : ∀ x ∈ data, T.Canonical x)
    (hlen : data.length * RingLayout.wireBytes T.Elem < 2 ^ 32) : (T.ownedMessage data).FlatSendable := by
  unfold ownedMessage
  split
  next e =>
    cases T with
    | ring48 => exact hcan e List.mem_cons_self
    | _ => trivial
  next =>
    cases T with
    | ring48 => exact ⟨hlen, hcan⟩
    | _ => exact hlen

/-- The pre-framed message has the bytes of the owned variant. -/
theorem toNetwork_sendRingVec (T : NetworkInt) (data : List T.Elem) :
    (T.sendRingVec data).toNetwork = (T.ownedMessage data).toNetwork := by
  unfold sendRingVec ownedMessage
  split
  next => rfl
  next =>
    cases T with
    | _ => rfl

theorem byteLen_sendRingVec (T : NetworkInt) (data : List T.Elem) {bytes : Bytes}
    (h : (T.sendRingVec data).toNetwork = .ok bytes) (howned : (T.ownedMessage data).byteLen = bytes.length) :
    (T.sendRingVec data).byteLen = bytes.length := by
  unfold sendRingVec ownedMessage at *
  split at h
  next => exact howned
  next =>
    obtain rfl := Except.ok.inj h
    rfl

/-- The elements come back out of the owned message. -/
theorem intoVec_ownedMessage (T : NetworkInt) (data : List T.Elem) : T.intoVec (T.ownedMessage data) = .ok data := by
  unfold ownedMessage
  split
  next => cases T <;> rfl
  next => cases T <;> rfl

theorem transport_sendRingVec (hcan : ∀ x ∈ data, T.Canonical x)
    (hlen : data.length * RingLayout.wireBytes T.Elem < 2 ^ 32) :
    StripedChannel.transport (T.sendRingVec data) = .ok (T.ownedMessage data) := by
  obtain ⟨hbytes, hvalue⟩ := deserialize_serialize_flat (flatSendable_ownedMessage hcan hlen)
  exact Outcome.bind_eq_ok.mpr ⟨_, (toNetwork_sendRingVec T data).trans hbytes, hvalue⟩

/-- A striped session cuts up the same bytes. -/
theorem send_sendRingVec (T : NetworkInt) (data : List T.Elem) {peer : PeerIo} (hn : 2 ≤ peer.connections) :
    peer.send (T.sendRingVec data) = peer.send (T.ownedMessage data) := by
  have h0 : ¬ peer.connections = 0 := by omega
  have h1 : ¬ peer.connections = 1 := by omega
  unfold PeerIo.send
  rw [if_neg h0, if_neg h1, if_neg h0, if_neg h1, intoNetwork_eq_toNetwork, intoNetwork_eq_toNetwork,
    toNetwork_sendRingVec]

end NetworkInt

/-! ## One connection -/

/-- The invariant of a channel over one connection: what was received, what is in the queue and what is on the
connection are the values sent, one after the other. -/
structure SingleInv (values : List NetworkValue) (s : StripedChannel) : Prop where
  connections : s.sender.connections = 1 ∧ s.receiver.connections = 1
  sent : s.sent = values.map fun v => (v, .ok ())
  queue : ∃ stream, s.streams = [stream] ∧
    s.results.filterMap ReceiveResult.returned? ++ s.inbound.map .ok ++ stream.map StripedChannel.transport =
      values.map StripedChannel.transport

namespace SingleInv

variable {values : List NetworkValue} {s t : StripedChannel}

theorem new : SingleInv [] (.new 1) := ⟨⟨rfl, rfl⟩, rfl, [], rfl, rfl⟩

theorem step (h : SingleInv values s) {e : StripedEvent} (hstep : s.step e = some t) :
    SingleInv (values ++ e.sent?.toList) t := by
  obtain ⟨⟨hsender, hreceiver⟩, hsent, stream, hstream, hqueue⟩ := h
  have h1 : ¬ s.sender.connections = 0 := by omega
  cases e with
  | send value =>
    have hsend : s.sender.send value = (s.sender, .ok [(0, value)]) := by
      unfold PeerIo.send
      rw [if_neg h1, if_pos hsender]
    unfold StripedChannel.step at hstep
    dsimp only at hstep
    rw [hsend] at hstep
    obtain rfl := Option.some.inj hstep
    refine ⟨⟨hsender, hreceiver⟩, ?_, stream ++ [value], ?_, ?_⟩
    · show s.sent ++ _ = _
      rw [hsent, List.map_append]
      rfl
    · show StripedChannel.put s.streams [(0, value)] = _
      rw [hstream]
      rfl
    · rw [List.map_append, ← List.append_assoc, hqueue, List.map_append]
      rfl
  | arrive c =>
    rw [show values ++ (StripedEvent.arrive c).sent?.toList = values from List.append_nil values]
    unfold StripedChannel.step at hstep
    dsimp only at hstep
    split at hstep
    next value rest hc =>
      cases hvalue : StripedChannel.transport value with
      | error e =>
        rw [hvalue] at hstep
        cases hstep
      | ok received =>
        rw [hvalue] at hstep
        obtain rfl := Option.some.inj hstep
        rw [hstream] at hc
        have hc0 : c = 0 := by
          have := (List.getElem?_eq_some_iff.mp hc).1
          rw [List.length_singleton] at this
          omega
        subst hc0
        obtain rfl : stream = value :: rest := Option.some.inj hc
        refine ⟨⟨hsender, hreceiver⟩, hsent, rest, ?_, ?_⟩
        · show s.streams.set 0 rest = _
          rw [hstream]
          rfl
        · rw [List.map_cons, hvalue] at hqueue
          show s.results.filterMap _ ++ (s.inbound ++ [received]).map _ ++ _ = _
          rw [List.map_append, ← hqueue]
          simp
    next => cases hstep
  | call =>
    rw [show values ++ StripedEvent.call.sent?.toList = values from List.append_nil values]
    unfold StripedChannel.step at hstep
    dsimp only at hstep
    rw [if_pos hreceiver] at hstep
    split_ifs at hstep
    obtain rfl := Option.some.inj hstep
    exact ⟨⟨hsender, hreceiver⟩, hsent, stream, hstream, hqueue⟩
  | recv =>
    rw [show values ++ StripedEvent.recv.sent?.toList = values from List.append_nil values]
    unfold StripedChannel.step at hstep
    dsimp only at hstep
    split at hstep
    next value rest hreceiving hinbound =>
      rw [if_pos hreceiver] at hstep
      obtain rfl := Option.some.inj hstep
      refine ⟨⟨hsender, hreceiver⟩, hsent, stream, hstream, ?_⟩
      show (s.results ++ [ReceiveResult.returned (.ok value)]).filterMap _ ++ rest.map _ ++ _ = _
      rw [← hqueue, hinbound, List.filterMap_append]
      simp [ReceiveResult.returned?]
    next => cases hstep
  | timeout =>
    rw [show values ++ StripedEvent.timeout.sent?.toList = values from List.append_nil values]
    unfold StripedChannel.step at hstep
    dsimp only at hstep
    split_ifs at hstep
    obtain rfl := Option.some.inj hstep
    refine ⟨⟨hsender, hreceiver⟩, hsent, stream, hstream, ?_⟩
    show (s.results ++ [ReceiveResult.timeout]).filterMap _ ++ s.inbound.map _ ++ _ = _
    rw [← hqueue, List.filterMap_append]
    simp [ReceiveResult.returned?]

theorem run (h : SingleInv values s) {events : List StripedEvent}
    (hrun : Transition.run StripedChannel.step s events = some t) :
    SingleInv (values ++ events.filterMap StripedEvent.sent?) t := by
  induction events generalizing s values with
  | nil =>
    cases hrun
    rw [List.filterMap_nil, List.append_nil]
    exact h
  | cons e events ih =>
    obtain ⟨u, hu, hrest⟩ := Option.bind_eq_some_iff.mp hrun
    rw [StripedEvent.sent_cons, ← List.append_assoc]
    exact ih (h.step hu) hrest

/-- What is on the connection can arrive, and what has been received are the first values sent. -/
theorem delivers (h : SingleInv values t) (hround : ∀ v ∈ values, (StripedChannel.transport v).Succeeds) :
    Delivers values (values.map StripedChannel.transport) t := by
  obtain ⟨⟨hsender, hreceiver⟩, hsent, stream, hstream, hqueue⟩ := h
  have hlen := congrArg List.length hqueue
  simp only [List.length_append, List.length_map] at hlen
  refine ⟨hsent, ?_, (t.results.filterMap ReceiveResult.returned?).length, by omega, ?_, ?_⟩
  · intro c value rest hc
    have hmem : value ∈ stream := by
      rw [hstream] at hc
      have hc0 : c = 0 := by
        have := (List.getElem?_eq_some_iff.mp hc).1
        rw [List.length_singleton] at this
        omega
      subst hc0
      obtain rfl : stream = value :: rest := Option.some.inj hc
      exact List.mem_cons_self
    have hcarried : StripedChannel.transport value ∈ values.map StripedChannel.transport := by
      rw [← hqueue]
      exact List.mem_append_right _ (List.mem_map_of_mem hmem)
    obtain ⟨v, hv, hvalue⟩ := List.mem_map.mp hcarried
    obtain ⟨received, hreceived⟩ := hround v hv
    unfold StripedChannel.step
    dsimp only
    rw [hc]
    dsimp only
    rw [← hvalue, hreceived]
    rfl
  · rw [← hqueue, List.append_assoc, List.take_left]
  · intro hstreams hinbound
    have hall : (t.results.filterMap ReceiveResult.returned?).length = values.length := by
      rw [hstream] at hstreams
      simp only [List.flatten_cons, List.flatten_nil, List.append_nil] at hstreams
      rw [hstreams, hinbound] at hlen
      simpa using hlen
    refine ⟨fun _ => hall, fun hreceiving => ⟨{ t with receiving := true }, ?_, ?_, fun _ => ⟨rfl, rfl⟩⟩⟩
    · unfold StripedChannel.step
      dsimp only
      rw [hreceiving, if_pos hreceiver]
      rfl
    · intro r hr
      have := (List.getElem?_eq_some_iff.mp hr).1
      rw [List.length_map] at this
      omega

end SingleInv

/-- The channel over any number of connections. -/
theorem delivers_of_run {n : Nat} (hn : 1 ≤ n) {events : List StripedEvent}
    (hround : ∀ v ∈ events.filterMap StripedEvent.sent?, (StripedChannel.transport v).Succeeds)
    (hlen : (events.filterMap StripedEvent.sent?).length < 2 ^ 64) {t : StripedChannel}
    (hrun : Transition.run StripedChannel.step (.new n) events = some t) :
    Delivers (events.filterMap StripedEvent.sent?)
      ((events.filterMap StripedEvent.sent?).map StripedChannel.transport) t := by
  by_cases hone : n = 1
  · subst hone
    exact (SingleInv.new.run hrun).delivers hround
  · exact stripedChannel_delivers (by omega) hround hlen hrun

/-- **The pre-framed fast path changes nothing observable.** The message `send_ring_vec` sends for a vector has the
bytes of the owned element or vector variant, as many as `byte_len` says, and a striped session cuts these up in the
same way. Over one connection or many, `receive_ring_vec` returns the vectors that were sent, in order. -/
theorem sendRingVec_unobservable (vecs : List (Σ T : NetworkInt, List T.Elem))
    (hvecs : ∀ v ∈ vecs, (∀ x ∈ v.2, v.1.Canonical x) ∧ v.2.length * RingLayout.wireBytes v.1.Elem < 2 ^ 32)
    (hlen : vecs.length < 2 ^ 64) :
    (∀ v ∈ vecs, ∃ bytes, (v.1.sendRingVec v.2).toNetwork = .ok bytes ∧
      (v.1.ownedMessage v.2).toNetwork = .ok bytes ∧ (v.1.sendRingVec v.2).byteLen = bytes.length ∧
      ∀ peer : PeerIo, 2 ≤ peer.connections →
        peer.send (v.1.sendRingVec v.2) = peer.send (v.1.ownedMessage v.2)) ∧
    ∀ n ≥ 1, ∀ events t, events.filterMap StripedEvent.sent? = vecs.map (fun v => v.1.sendRingVec v.2) →
      Transition.run StripedChannel.step (.new n) events = some t →
      t.sent = vecs.map (fun v => (v.1.sendRingVec v.2, .ok ())) ∧
      (∀ c value rest, t.streams[c]? = some (value :: rest) → (t.step (.arrive c)).isSome = true) ∧
      ∃ k ≤ vecs.length, List.Forall₂ (fun v r => v.1.receiveRingVec r = .ok v.2) (vecs.take k)
          (t.results.filterMap ReceiveResult.returned?) ∧
        (t.streams.flatten = [] → t.inbound = [] → (t.receiving = true → k = vecs.length) ∧
          (t.receiving = false → ∃ u, t.step .call = some u ∧
            (∀ v, vecs[k]? = some v → ∃ r, u.results = t.results ++ [.returned r] ∧
              v.1.receiveRingVec r = .ok v.2) ∧
            (k = vecs.length → u.results = t.results ∧ u.receiving = true))) := by
  have htransport : ∀ v ∈ vecs, StripedChannel.transport (v.1.sendRingVec v.2) = .ok (v.1.ownedMessage v.2) :=
    fun v hv => NetworkInt.transport_sendRingVec (hvecs v hv).1 (hvecs v hv).2
  have hreceive : ∀ v ∈ vecs, v.1.receiveRingVec (StripedChannel.transport (v.1.sendRingVec v.2)) = .ok v.2 := by
    intro v hv
    rw [htransport v hv]
    exact NetworkInt.intoVec_ownedMessage v.1 v.2
  constructor
  · intro v hv
    have hflat := NetworkInt.flatSendable_ownedMessage (hvecs v hv).1 (hvecs v hv).2
    obtain ⟨hbytes, -⟩ := deserialize_serialize_flat hflat
    have hsent := (NetworkInt.toNetwork_sendRingVec v.1 v.2).trans hbytes
    refine ⟨_, hsent, hbytes, ?_, fun peer hn => NetworkInt.send_sendRingVec v.1 v.2 hn⟩
    exact NetworkInt.byteLen_sendRingVec v.1 v.2 hsent (length_frame hflat.flat).symm
  · intro n hn events t hevents hrun
    have hround : ∀ message ∈ events.filterMap StripedEvent.sent?, (StripedChannel.transport message).Succeeds := by
      rw [hevents]
      intro message hmessage
      obtain ⟨v, hv, rfl⟩ := List.mem_map.mp hmessage
      exact ⟨_, htransport v hv⟩
    have hcount : (events.filterMap StripedEvent.sent?).length < 2 ^ 64 := by
      rw [hevents, List.length_map]
      exact hlen
    have hdelivers := delivers_of_run hn hround hcount hrun
    rw [hevents, List.map_map] at hdelivers
    obtain ⟨k, hk, hresults, hempty⟩ := hdelivers.returns
    rw [List.length_map] at hk hempty
    refine ⟨hdelivers.sent.trans ?_, hdelivers.arrives, k, hk, ?_, ?_⟩
    · rw [List.map_map]
      rfl
    · rw [hresults, ← List.map_take, List.forall₂_map_right_iff, List.forall₂_same]
      intro v hv
      exact hreceive v (List.mem_of_mem_take hv)
    · intro hstreams hinbound
      obtain ⟨hwaiting, hidle⟩ := hempty hstreams hinbound
      refine ⟨hwaiting, fun hreceiving => ?_⟩
      obtain ⟨u, hu, hnext, hall⟩ := hidle hreceiving
      refine ⟨u, hu, ?_, hall⟩
      intro v hv
      obtain ⟨hresult, -⟩ := hnext (StripedChannel.transport (v.1.sendRingVec v.2)) (by
        rw [List.getElem?_map, hv]
        rfl)
      exact ⟨_, hresult, hreceive v (List.mem_of_getElem? hv)⟩

/-- An element of one ring, then a vector of another. -/
def elementAndVector : List (Σ T : NetworkInt, List T.Elem) :=
  [⟨.ring48, [⟨2 ^ 47⟩]⟩, ⟨.u16, [7, 8, 9]⟩]

theorem sendRingVec_unobservable_elementAndVector :
    ∃ t, Transition.run StripedChannel.step (.new 3) [.send (NetworkInt.sendRingVec .ring48 [⟨2 ^ 47⟩]),
        .send (NetworkInt.sendRingVec .u16 [7, 8, 9]), .arrive 0, .call, .recv, .arrive 1] = some t ∧
      ∃ k ≤ 2, List.Forall₂ (fun v r => v.1.receiveRingVec r = .ok v.2) (elementAndVector.take k)
        (t.results.filterMap ReceiveResult.returned?) := by
  have hrun : (Transition.run StripedChannel.step (.new 3) [.send (NetworkInt.sendRingVec .ring48 [⟨2 ^ 47⟩]),
      .send (NetworkInt.sendRingVec .u16 [7, 8, 9]), .arrive 0, .call, .recv, .arrive 1]).isSome = true := by
    decide
  obtain ⟨t, ht⟩ := Option.isSome_iff_exists.mp hrun
  have hvecs : ∀ v ∈ elementAndVector,
      (∀ x ∈ v.2, v.1.Canonical x) ∧ v.2.length * RingLayout.wireBytes v.1.Elem < 2 ^ 32 := by
    unfold elementAndVector
    simp only [List.forall_mem_cons]
    exact ⟨⟨⟨show 2 ^ 47 < 2 ^ 48 by decide, fun _ h => absurd h List.not_mem_nil⟩, by decide⟩,
      ⟨⟨trivial, trivial, trivial, fun _ h => absurd h List.not_mem_nil⟩, by decide⟩,
      fun _ h => absurd h List.not_mem_nil⟩
  obtain ⟨-, -, k, hk, hresults, -⟩ :=
    (sendRingVec_unobservable elementAndVector hvecs (by decide)).2 3 (by decide) _ t rfl ht
  exact ⟨t, ht, k, hk, hresults⟩

end AmpcCommon.Channel
