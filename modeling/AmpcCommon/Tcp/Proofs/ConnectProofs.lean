import AmpcCommon.Tcp.Connect
import AmpcCommon.Tcp.Proofs.HandshakeProofs

/-!
# Making a connection, proofs

Both ends follow their scripts up to the client's last read, whatever the chunks are. The response has three bytes, and
the client takes as many of them as a single `read` gives it.
-/

namespace AmpcCommon.Tcp.Connect

open StreamNetwork (Act)

/-! ## What the ends do -/

/-- The operations of writing bytes. -/
def writing (bytes : Bytes) : List (Act Unit UInt8 HandshakeNote) := bytes.map (.send ()) ++ [.skip]

/-- The operations of reading bytes. -/
def reading (bytes : Bytes) : List (Act Unit UInt8 HandshakeNote) := bytes.map (.recv ()) ++ [.skip]

theorem performs_readU32 (n : BitVec 32) : readU32.Performs (reading (toBeBytes n)) n := by
  have hread := StreamTask.performs_readExact (N := HandshakeNote) () (toBeBytes n)
  rw [length_toBeBytes] at hread
  have hpure := hread.bind (f := fun bytes => pure (fromBeBytes bytes)) (StreamTask.performs_pure _)
  rwa [List.append_nil, fromBeBytes_toBeBytes] at hpure

/-- The length of an id, as it is sent. -/
def idLength (peerId : Identity) : BitVec 32 := BitVec.ofNat 32 (utf8Bytes peerId).length

theorem toNat_idLength {peerId : Identity} (h : (utf8Bytes peerId).length ≤ maxPeerIdLength) :
    (idLength peerId).toNat = (utf8Bytes peerId).length := by
  have hlt : (utf8Bytes peerId).length < 2 ^ 32 := h.trans_lt (by decide)
  unfold idLength
  rw [BitVec.toNat_ofNat, Nat.mod_eq_of_lt hlt]

theorem performs_outbound (ownId : Identity) (connectionId : ConnectionId) :
    (outbound ownId connectionId).Performs (writing (toBeBytes connectionId) ++ (reading (toBeBytes connectionId) ++
      (writing (toBeBytes (idLength ownId)) ++ writing (utf8Bytes ownId)))) () := by
  refine (StreamTask.performs_writeAll () _).bind ((performs_readU32 connectionId).bind ?_)
  rw [if_neg (not_not.mpr rfl)]
  exact (StreamTask.performs_writeAll () _).bind (StreamTask.performs_writeAll () _)

theorem performs_inbound {peerId : Identity} (h : (utf8Bytes peerId).length ≤ maxPeerIdLength)
    (connectionId : ConnectionId) :
    inbound.Performs (reading (toBeBytes connectionId) ++ (writing (toBeBytes connectionId) ++
      (reading (toBeBytes (idLength peerId)) ++ reading (utf8Bytes peerId)))) (peerId, connectionId) := by
  refine (performs_readU32 connectionId).bind ((StreamTask.performs_writeAll () _).bind
    ((performs_readU32 (idLength peerId)).bind ?_))
  rw [toNat_idLength h, if_neg (Nat.not_lt.mpr h)]
  have hops : reading (utf8Bytes peerId) = reading (utf8Bytes peerId) ++ [] := (List.append_nil _).symm
  rw [hops]
  refine (StreamTask.performs_readExact () (utf8Bytes peerId)).bind ?_
  rw [fromUtf8_eq_some.mpr rfl]
  exact StreamTask.performs_pure _

/-- The client, once the server knows it, waits for the response. -/
def awaitResponse : HandshakeTask Unit := StreamNetwork.Process.read () 3 fun rsp => .pure (checkResponse rsp)

/-- The operations of an end, with their stages; an element is received one stage after it is sent. -/
def script (ownId : Identity) (connectionId : ConnectionId) : Endpoint → List (Nat × Act Unit UInt8 HandshakeNote)
  | .client =>
    (writing (toBeBytes connectionId)).map (Prod.mk 0) ++ ((reading (toBeBytes connectionId)).map (Prod.mk 3) ++
      (writing (toBeBytes (idLength ownId)) ++ writing (utf8Bytes ownId)).map (Prod.mk 4))
  | .server =>
    (reading (toBeBytes connectionId)).map (Prod.mk 1) ++ ((writing (toBeBytes connectionId)).map (Prod.mk 2) ++
      ((reading (toBeBytes (idLength ownId)) ++ reading (utf8Bytes ownId)).map (Prod.mk 5) ++
        (.note (.inbound ownId connectionId) :: (writing handshakeOk ++ [.note .handedOver])).map (Prod.mk 6)))

/-- What the ends do before the client's last read, which is left with the response. -/
def plan (ownId : Identity) (connectionId : ConnectionId) :
    StreamNetwork.Plan Endpoint Unit UInt8 HandshakeNote (Outcome Unit) where
  script := script ownId connectionId
  final
    | .client => awaitResponse
    | .server => .pure (.ok ())
  extra
    | (.client, _) => handshakeOk.map (Prod.mk 7)
    | (.server, _) => []

variable {ownId : Identity} {connectionId : ConnectionId}

theorem does_party (h : (utf8Bytes ownId).length ≤ maxPeerIdLength) (p : Endpoint) :
    StreamNetwork.Does (party ownId connectionId p) (((plan ownId connectionId).script p).map Prod.snd)
      ((plan ownId connectionId).final p) := by
  have hstage : ∀ (r : Nat) (as : List (Act Unit UInt8 HandshakeNote)), (as.map (Prod.mk r)).map Prod.snd = as := by
    intro r as
    rw [List.map_map]
    exact List.map_id _
  cases p with
  | client =>
    show StreamNetwork.Does _ ((script ownId connectionId .client).map Prod.snd) _
    have hops : (script ownId connectionId .client).map Prod.snd = (writing (toBeBytes connectionId) ++
        (reading (toBeBytes connectionId) ++ (writing (toBeBytes (idLength ownId)) ++ writing (utf8Bytes ownId)))) ++
          [] := by
      simp only [script, List.map_append, hstage, List.append_nil]
    rw [hops]
    exact (performs_outbound ownId connectionId).does_bind (.done trivial)
  | server =>
    show StreamNetwork.Does _ ((script ownId connectionId .server).map Prod.snd) _
    have hops : (script ownId connectionId .server).map Prod.snd = (reading (toBeBytes connectionId) ++
        (writing (toBeBytes connectionId) ++ (reading (toBeBytes (idLength ownId)) ++ reading (utf8Bytes ownId)))) ++
          ([.note (.inbound ownId connectionId)] ++ (writing handshakeOk ++ [.note .handedOver])) := by
      simp only [script, List.map_append, hstage, List.append_assoc]
      rfl
    rw [hops]
    refine (performs_inbound h connectionId).does_bind ((StreamTask.performs_note _).does_bind ?_)
    exact (StreamTask.performs_writeAll () handshakeOk).does_bind (StreamTask.performs_note _)

theorem sent_writing (bytes : Bytes) : (writing bytes).filterMap (Act.sent? ()) = bytes := by
  simp only [writing, List.filterMap_append, Act.filterMap_sent_send, List.filterMap_cons, Act.sent_skip,
    List.filterMap_nil, List.append_nil]
  rfl

theorem received_reading (bytes : Bytes) : (reading bytes).filterMap (Act.received? ()) = bytes := by
  simp only [reading, List.filterMap_append, Act.filterMap_received_recv, List.filterMap_cons, Act.received_skip,
    List.filterMap_nil, List.append_nil]
  rfl

theorem received_writing (bytes : Bytes) : (writing bytes).filterMap (Act.received? ()) = [] := by
  simp only [writing, List.filterMap_append, Act.filterMap_received_send]
  rfl

theorem sent_reading (bytes : Bytes) : (reading bytes).filterMap (Act.sent? ()) = [] := by
  simp only [reading, List.filterMap_append, Act.filterMap_sent_recv]
  rfl

/-- What an end reads is what the other one writes one stage earlier; the response is left. -/
theorem matches_script (e : Endpoint × Unit) :
    List.Forall₂ StreamNetwork.Matches
      (StreamNetwork.sends (otherEnd e).2 ((plan ownId connectionId).script (otherEnd e).1))
      (StreamNetwork.recvs e.2 ((plan ownId connectionId).script e.1) ++ (plan ownId connectionId).extra e) := by
  obtain ⟨p, u⟩ := e
  cases p with
  | client =>
    have hsends : StreamNetwork.sends () (script ownId connectionId .server) =
        (toBeBytes connectionId).map (Prod.mk 2) ++ handshakeOk.map (Prod.mk 6) := by
      simp only [StreamNetwork.sends, script, StreamNetwork.picks_append, StreamNetwork.picks_map_mk,
        List.filterMap_append, List.filterMap_cons, sent_reading, sent_writing, Act.sent_note, List.filterMap_nil,
        List.map_nil, List.nil_append, List.append_nil]
    have hrecvs : StreamNetwork.recvs () (script ownId connectionId .client) =
        (toBeBytes connectionId).map (Prod.mk 3) := by
      simp only [StreamNetwork.recvs, script, StreamNetwork.picks_append, StreamNetwork.picks_map_mk,
        List.filterMap_append, received_reading, received_writing, List.map_nil, List.nil_append, List.append_nil]
    show List.Forall₂ _ (StreamNetwork.sends () (script ownId connectionId .server))
      (StreamNetwork.recvs () (script ownId connectionId .client) ++ handshakeOk.map (Prod.mk 7))
    rw [hsends, hrecvs]
    exact List.rel_append (StreamNetwork.matches_map_mk 2 _) (StreamNetwork.matches_map_mk 6 _)
  | server =>
    have hsends : StreamNetwork.sends () (script ownId connectionId .client) =
        (toBeBytes connectionId).map (Prod.mk 0) ++
          (toBeBytes (idLength ownId) ++ utf8Bytes ownId).map (Prod.mk 4) := by
      simp only [StreamNetwork.sends, script, StreamNetwork.picks_append, StreamNetwork.picks_map_mk,
        List.filterMap_append, sent_reading, sent_writing, List.map_nil, List.nil_append]
    have hrecvs : StreamNetwork.recvs () (script ownId connectionId .server) =
        (toBeBytes connectionId).map (Prod.mk 1) ++
          (toBeBytes (idLength ownId) ++ utf8Bytes ownId).map (Prod.mk 5) := by
      simp only [StreamNetwork.recvs, script, StreamNetwork.picks_append, StreamNetwork.picks_map_mk,
        List.filterMap_append, List.filterMap_cons, received_reading, received_writing, Act.received_note,
        List.filterMap_nil, List.map_nil, List.nil_append, List.append_nil]
    show List.Forall₂ _ (StreamNetwork.sends () (script ownId connectionId .client))
      (StreamNetwork.recvs () (script ownId connectionId .server) ++ [])
    rw [hsends, hrecvs, List.append_nil]
    exact List.rel_append (StreamNetwork.matches_map_mk 0 _) (StreamNetwork.matches_map_mk 4 _)

theorem sorted_script (p : Endpoint) : ((plan ownId connectionId).script p).Pairwise fun x y => x.1 ≤ y.1 := by
  cases p with
  | client =>
    refine StreamNetwork.sorted_map_mk_append (StreamNetwork.sorted_map_mk_append
      (StreamNetwork.sorted_map_mk _ _) ?_) ?_
    · intro y hy
      obtain ⟨a, -, rfl⟩ := List.mem_map.mp hy
      exact Nat.le_succ _
    · exact fun y _ => Nat.zero_le _
  | server =>
    refine StreamNetwork.sorted_map_mk_append (StreamNetwork.sorted_map_mk_append
      (StreamNetwork.sorted_map_mk_append (StreamNetwork.sorted_map_mk _ _) ?_) ?_) ?_
    · intro y hy
      obtain ⟨a, -, rfl⟩ := List.mem_map.mp hy
      exact Nat.le_succ _
    · intro y hy
      rw [List.mem_append, List.mem_map, List.mem_map] at hy
      rcases hy with ⟨a, -, rfl⟩ | ⟨a, -, rfl⟩ <;> dsimp only <;> omega
    · intro y hy
      rw [List.mem_append, List.mem_append, List.mem_map, List.mem_map, List.mem_map] at hy
      rcases hy with ⟨a, -, rfl⟩ | ⟨a, -, rfl⟩ | ⟨a, -, rfl⟩ <;> dsimp only <;> omega

theorem otherEnd_involutive : Function.Involutive otherEnd := by
  rintro ⟨p, u⟩
  cases p <;> rfl

/-! ## Runs -/

/-- The single read of an end takes the whole response. -/
def TakesResponse (c : Network) (a : Endpoint × Nat) : Prop :=
  ∀ max k, c.proc a.1 = .read () max k → a.2 = handshakeOk.length

/-- The plan once the client has read `m` bytes of the response. -/
def planAfter (ownId : Identity) (connectionId : ConnectionId) (m : Nat) :
    StreamNetwork.Plan Endpoint Unit UInt8 HandshakeNote (Outcome Unit) :=
  { plan ownId connectionId with
    final := Function.update (plan ownId connectionId).final .client (.pure (checkResponse (handshakeOk.take m)))
    extra := Function.update (plan ownId connectionId).extra (.client, ()) ((handshakeOk.map (Prod.mk 7)).drop m) }

/-- The client has not read the response, and there are fewer than `n` steps to go. -/
def Before (ownId : Identity) (connectionId : ConnectionId) (n : Nat) (c : Network) : Prop :=
  ∃ past ops queue, StreamNetwork.Follows otherEnd (plan ownId connectionId) past ops queue c ∧
    ∑ p, (ops p).length < n

/-- The client has read `m` bytes of the response, and there are at most `n` steps to go. -/
def After (ownId : Identity) (connectionId : ConnectionId) (m n : Nat) (c : Network) : Prop :=
  ∃ past ops queue, StreamNetwork.Follows otherEnd (planAfter ownId connectionId m) past ops queue c ∧
    ∑ p, (ops p).length ≤ n ∧ c.proc .client = .pure (checkResponse (handshakeOk.take m))

theorem before_start (connectionId : ConnectionId) (h : (utf8Bytes ownId).length ≤ maxPeerIdLength) :
    ∃ n, Before ownId connectionId n (StreamNetwork.start (party ownId connectionId)) :=
  ⟨_, _, _, _, StreamNetwork.Follows.of_start (does_party h) matches_script, Nat.lt_succ_self _⟩

/-- A step before the client's last read, or this read. -/
theorem Before.of_step {n m : Nat} {p : Endpoint} {c t : Network} (h : Before ownId connectionId (n + 1) c)
    (ht : step c (p, m) = some t) : (Before ownId connectionId n t ∧ TakesResponse c (p, m)) ∨
      (After ownId connectionId m n t ∧ m ≤ 3 ∧ (TakesResponse c (p, m) ↔ m = 3)) := by
  obtain ⟨past, ops, queue, h, hlt⟩ := h
  by_cases hnil : ops p = []
  · have hproc := h.proc_eq hnil
    cases p with
    | server =>
      -- the server has returned
      have hstuck : step c (.server, m) = none := by
        unfold step StreamNetwork.step
        dsimp only
        rw [hproc]
        rfl
      rw [hstuck] at ht
      cases ht
    | client =>
      obtain ⟨-, hmax, queue', h'⟩ := h.readOnce hnil (d := ()) rfl ht fun _ => trivial
      have hbytes : (((plan ownId connectionId).extra (.client, ())).take m).map Prod.snd = handshakeOk.take m := by
        show ((handshakeOk.map (Prod.mk 7)).take m).map Prod.snd = _
        rw [← List.map_take, List.map_map]
        exact List.map_id _
      rw [hbytes] at h'
      refine Or.inr ⟨⟨past, ops, queue', h', Nat.le_of_lt_succ hlt, ?_⟩, hmax, ?_⟩
      · rw [h'.proc_eq hnil]
        exact Function.update_self (f := (plan ownId connectionId).final) Endpoint.client _
      · constructor
        · intro htakes
          exact htakes 3 _ hproc
        · rintro rfl _ _ _
          rfl
  · refine Or.inl ⟨?_, ?_⟩
    · obtain ⟨past', ops', queue', h', hlt'⟩ := h.preserved otherEnd_involutive ht hnil
      exact ⟨past', ops', queue', h', by omega⟩
    · intro max k hp
      obtain ⟨x, rest, hops⟩ := List.exists_cons_of_ne_nil hnil
      have hdoes := h.does p
      rw [hops, hp] at hdoes
      exact absurd trivial hdoes.not_halted

/-- A step after the client's last read. -/
theorem After.of_step {n m m' : Nat} {p : Endpoint} {c t : Network} (h : After ownId connectionId m n c)
    (ht : step c (p, m') = some t) :
    ∃ n', n = n' + 1 ∧ After ownId connectionId m n' t ∧ TakesResponse c (p, m') := by
  obtain ⟨past, ops, queue, h, hle, hclient⟩ := h
  cases p with
  | client =>
    unfold step StreamNetwork.step at ht
    dsimp only at ht
    rw [hclient] at ht
    cases ht
  | server =>
    have hne : ops .server ≠ [] := by
      intro hnil
      have hproc : c.proc .server = .pure (.ok ()) := h.proc_eq hnil
      unfold step StreamNetwork.step at ht
      dsimp only at ht
      rw [hproc] at ht
      cases ht
    obtain ⟨past', ops', queue', h', hlt'⟩ := h.preserved otherEnd_involutive ht hne
    refine ⟨n - 1, by omega, ⟨past', ops', queue', h', by omega, ?_⟩, ?_⟩
    · rw [StreamNetwork.proc_of_ne ht (by decide), hclient]
    · intro max k hp
      obtain ⟨x, rest, hops⟩ := List.exists_cons_of_ne_nil hne
      have hdoes := h.does .server
      rw [hops, hp] at hdoes
      exact absurd trivial hdoes.not_halted

theorem After.of_run {n m : Nat} {c t : Network} {acts : List (Endpoint × Nat)} (h : After ownId connectionId m n c)
    (hrun : Transition.run step c acts = some t) :
    acts.length ≤ n ∧ (∃ n', After ownId connectionId m n' t) ∧ Transition.Along step TakesResponse c acts := by
  induction acts generalizing c n with
  | nil =>
    cases hrun
    exact ⟨Nat.zero_le n, ⟨n, h⟩, trivial⟩
  | cons a acts ih =>
    obtain ⟨u, hu, hrest⟩ := Option.bind_eq_some_iff.mp hrun
    obtain ⟨n', rfl, hafter, htakes⟩ := h.of_step hu
    obtain ⟨hlen, hend, halong⟩ := ih hafter hrest
    refine ⟨Nat.succ_le_succ hlen, hend, htakes, fun v hv => ?_⟩
    rw [hu] at hv
    cases hv
    exact halong

/-- A run, up to the client's last read or beyond it. -/
theorem Before.of_run {n : Nat} {c t : Network} {acts : List (Endpoint × Nat)} (h : Before ownId connectionId n c)
    (hrun : Transition.run step c acts = some t) : acts.length ≤ n ∧
      (((∃ n', Before ownId connectionId n' t) ∧ Transition.Along step TakesResponse c acts) ∨
        ∃ m n', After ownId connectionId m n' t ∧ m ≤ 3 ∧ (Transition.Along step TakesResponse c acts ↔ m = 3)) := by
  induction acts generalizing c n with
  | nil =>
    cases hrun
    exact ⟨Nat.zero_le n, Or.inl ⟨⟨n, h⟩, trivial⟩⟩
  | cons a acts ih =>
    obtain ⟨u, hu, hrest⟩ := Option.bind_eq_some_iff.mp hrun
    have hall : Transition.Along step TakesResponse u acts →
        ∀ v, step c a = some v → Transition.Along step TakesResponse v acts := by
      intro halong v hv
      rw [hu] at hv
      cases hv
      exact halong
    cases n with
    | zero =>
      obtain ⟨past, ops, queue, -, hlt⟩ := h
      exact absurd hlt (Nat.not_lt_zero _)
    | succ n =>
      rcases h.of_step hu with ⟨hbefore, htakes⟩ | ⟨hafter, hmax, htakes⟩
      · obtain ⟨hlen, hend⟩ := ih hbefore hrest
        refine ⟨Nat.succ_le_succ hlen, ?_⟩
        rcases hend with ⟨hbefore', halong⟩ | ⟨m, n', hafter', hm, halong⟩
        · exact Or.inl ⟨hbefore', htakes, hall halong⟩
        · refine Or.inr ⟨m, n', hafter', hm, ?_⟩
          rw [← halong]
          exact ⟨fun h => h.2 u hu, fun h => ⟨htakes, hall h⟩⟩
      · obtain ⟨hlen, ⟨n', hend⟩, halong⟩ := hafter.of_run hrest
        refine ⟨Nat.succ_le_succ hlen, Or.inr ⟨_, n', hend, hmax, ?_⟩⟩
        rw [← htakes]
        exact ⟨fun h => h.1, fun h => ⟨h, hall halong⟩⟩

/-! ## The outcome -/

/-- What is expected of a handshake in any state of a run: no end has failed, the server has obtained exactly the ids of
the client, and when nothing more can happen, both ends have returned `Ok`, and no byte is left. -/
structure HandshakeHolds (ownId : Identity) (connectionId : ConnectionId) (t : Network) : Prop where
  noError : ∀ p o, t.proc p = .pure o → o = .ok ()
  exactIds : ∀ peerId id, (Endpoint.server, HandshakeNote.inbound peerId id) ∈ t.log →
    peerId = ownId ∧ id = connectionId
  complete : Transition.Terminal step t → (∀ p, t.proc p = .pure (.ok ())) ∧
    (.server, .inbound ownId connectionId) ∈ t.log ∧ (.server, .handedOver) ∈ t.log ∧ ∀ e, t.inbox e = []

theorem checkResponse_take {m : Nat} (h : m ≤ 3) : checkResponse (handshakeOk.take m) = .ok () ↔ m = 3 := by
  have hlen : (handshakeOk.take m).length = m := List.length_take_of_le h
  constructor
  · intro hok
    unfold checkResponse at hok
    split_ifs at hok with hbad
    · cases hok
    · rw [not_or, hlen, not_not] at hbad
      exact hbad.1
  · rintro rfl
    rfl

theorem note_mem_script {r : Nat} {peerId : Identity} {id : ConnectionId}
    (h : (r, .note (.inbound peerId id)) ∈ script ownId connectionId .server) : peerId = ownId ∧ id = connectionId := by
  simp [script, reading, writing] at h
  exact h.2

section Follows

variable {past ops : Endpoint → List (Nat × Act Unit UInt8 HandshakeNote)}
  {queue : Endpoint × Unit → List (Nat × UInt8)} {t : Network}
  {plan' : StreamNetwork.Plan Endpoint Unit UInt8 HandshakeNote (Outcome Unit)}

theorem exactIds_of_follows (h : StreamNetwork.Follows otherEnd plan' past ops queue t)
    (hscript : plan'.script = script ownId connectionId) {peerId : Identity} {id : ConnectionId}
    (hlog : (Endpoint.server, HandshakeNote.inbound peerId id) ∈ t.log) : peerId = ownId ∧ id = connectionId := by
  obtain ⟨r, hpast⟩ := h.mem_log_iff.mp hlog
  refine note_mem_script (r := r) ?_
  rw [← hscript, h.script]
  exact List.mem_append_left _ hpast

theorem nil_of_terminal (h : StreamNetwork.Follows otherEnd plan' past ops queue t)
    (hscript : plan'.script = script ownId connectionId) (hterm : Transition.Terminal step t) (p : Endpoint) :
    ops p = [] := by
  have hsorted : ∀ p, (plan'.script p).Pairwise fun x y => x.1 ≤ y.1 := by
    rw [hscript]
    exact sorted_script
  rcases h.progress hsorted with hnil | ⟨q, m, u, -, hu⟩
  · exact hnil p
  · have hnone : StreamNetwork.step otherEnd t (q, m) = none := hterm (q, m)
    rw [hnone] at hu
    cases hu

theorem log_of_nil (h : StreamNetwork.Follows otherEnd plan' past ops queue t)
    (hscript : plan'.script = script ownId connectionId) (hnil : ops .server = []) :
    (.server, .inbound ownId connectionId) ∈ t.log ∧ (.server, .handedOver) ∈ t.log := by
  have hpast : past .server = script ownId connectionId .server := by
    rw [← hscript, h.script, hnil, List.append_nil]
  constructor
  · refine h.mem_log_iff.mpr ⟨6, ?_⟩
    simp [hpast, script]
  · refine h.mem_log_iff.mpr ⟨6, ?_⟩
    simp [hpast, script]

end Follows

theorem Before.holds {n : Nat} {t : Network} (h : Before ownId connectionId n t) :
    HandshakeHolds ownId connectionId t := by
  obtain ⟨past, ops, queue, h, -⟩ := h
  refine ⟨fun p o hp => ?_, fun peerId id => exactIds_of_follows h rfl, fun hterm => ?_⟩
  · obtain ⟨-, hfinal⟩ := h.final_of_halted (p := p) (by rw [hp]; trivial)
    rw [hp] at hfinal
    cases p with
    | client => cases hfinal
    | server =>
      cases hfinal
      rfl
  · -- the response is there for the client to read
    have hnil := nil_of_terminal h rfl hterm
    have hproc : t.proc .client = awaitResponse := h.proc_eq (hnil .client)
    have hinbox : t.inbox (.client, ()) = handshakeOk := (h.complete hnil).2.1 (.client, ())
    have hread := hterm (.client, 3)
    unfold step StreamNetwork.step at hread
    dsimp only at hread
    rw [hproc] at hread
    unfold awaitResponse at hread
    dsimp only at hread
    rw [hinbox, if_pos (by decide)] at hread
    cases hread

theorem After.holds_iff {m n : Nat} {t : Network} (h : After ownId connectionId m n t) (hm : m ≤ 3) :
    HandshakeHolds ownId connectionId t ↔ m = 3 := by
  obtain ⟨past, ops, queue, h, -, hclient⟩ := h
  constructor
  · intro hholds
    exact (checkResponse_take hm).mp (hholds.noError .client _ hclient)
  · rintro rfl
    refine ⟨fun p o hp => ?_, fun peerId id => exactIds_of_follows h rfl, fun hterm => ?_⟩
    · obtain ⟨-, hfinal⟩ := h.final_of_halted (p := p) (by rw [hp]; trivial)
      rw [hp] at hfinal
      cases p with
      | client =>
        cases hfinal
        rfl
      | server =>
        cases hfinal
        rfl
    · have hnil := nil_of_terminal h rfl hterm
      obtain ⟨hproc, hinbox, -⟩ := h.complete hnil
      obtain ⟨hinbound, hgiven⟩ := log_of_nil h rfl (hnil .server)
      refine ⟨fun p => ?_, hinbound, hgiven, fun e => ?_⟩
      · rw [hproc]
        cases p with
        | client => rfl
        | server => rfl
      · rw [hinbox]
        obtain ⟨p, u⟩ := e
        cases p with
        | client => rfl
        | server => rfl

/-- **The handshake**, for every id of at most 128 bytes, every connection id and every run of the two ends, whatever
the chunks and the order are: it does what is expected of it if and only if the single read of `outbound_ok`, when it
is made, takes all three bytes of the response. The runs end. -/
theorem handshake_holds_iff {ownId : Identity} (hid : (utf8Bytes ownId).length ≤ maxPeerIdLength)
    (connectionId : ConnectionId) : ∃ n, ∀ acts t,
      Transition.run step (StreamNetwork.start (party ownId connectionId)) acts = some t → acts.length ≤ n ∧
        (HandshakeHolds ownId connectionId t ↔
          Transition.Along step TakesResponse (StreamNetwork.start (party ownId connectionId)) acts) := by
  obtain ⟨n, hstart⟩ := before_start connectionId hid
  refine ⟨n, fun acts t hrun => ?_⟩
  obtain ⟨hlen, hend⟩ := hstart.of_run hrun
  refine ⟨hlen, ?_⟩
  rcases hend with ⟨⟨n', hbefore⟩, halong⟩ | ⟨m, n', hafter, hm, halong⟩
  · exact iff_of_true hbefore.holds halong
  · rw [halong]
    exact hafter.holds_iff hm

theorem handshake_holds_iff_one : ∃ n, ∀ acts t,
    Transition.run step (StreamNetwork.start (party "1" 7)) acts = some t → acts.length ≤ n ∧
      (HandshakeHolds "1" 7 t ↔ Transition.Along step TakesResponse (StreamNetwork.start (party "1" 7)) acts) :=
  handshake_holds_iff (by decide) 7

/-- A run in which the last read gives the client one byte of the response. -/
def shortRead : List (Endpoint × Nat) :=
  [(.client, 4), (.client, 0), (.server, 4), (.server, 0), (.server, 4), (.server, 0), (.client, 4), (.client, 0),
    (.client, 4), (.client, 0), (.client, 1), (.client, 0), (.server, 4), (.server, 0), (.server, 1), (.server, 0),
    (.server, 0), (.server, 3), (.server, 0), (.server, 0), (.client, 1)]

/-- The server has handed the stream over, and the client fails. -/
theorem handshake_shortRead :
    ∃ t, Transition.run step (StreamNetwork.start (party "1" 7)) shortRead = some t ∧
      (.server, .handedOver) ∈ t.log ∧ t.proc .server = .pure (.ok ()) ∧
      t.proc .client = .pure (.bail "Handshake failed: not accepted: rsp=[50]") ∧
      t.inbox (.client, ()) = [0x6F, 0x6B] ∧ ¬ HandshakeHolds "1" 7 t := by
  refine ⟨_, rfl, by decide, rfl, rfl, rfl, fun h => ?_⟩
  have hclient := h.noError .client _ rfl
  cases hclient

end AmpcCommon.Tcp.Connect
