import AmpcCommon.Tcp.Listener
import AmpcCommon.Tcp.Proofs.HandshakeProofs
import Mathlib.Data.List.Nodup

/-!
# The accept loop, proofs

The table of requests is read through `Listener.registered`. A stream that is handled is closed, or the request with
its key is taken out of the table and gets it (`handle_cases`). The invariant `Inv` says that every stream so far has
one fate, and that a request in the table has the key it is entered under and was not answered.
-/

namespace AmpcCommon.Tcp

/-- The stream `stream`, accepted at `now`, may be given to who asked for the connection of a peer. -/
structure Entitled (pki : WebPki) (tls : Option RuntimeTlsConfig) (stream : Stream) (now : Nat) (peerId : Identity)
    (connectionId : ConnectionId) : Prop where
  /-- The handshake announced the peer and the connection. -/
  announced : ∃ rest, stream.input = announcement peerId connectionId ++ rest
  /-- If this is checked, the certificate is anchored to the root of the peer. -/
  anchored : ∀ config, tls = some config → config.validatePeerIds = true →
    ∃ root chain, config.peerCerts.lookup peerId = some root ∧ stream.maybeTlsCertChain = some chain ∧
      isChainAnchoredToRoot pki now chain root = true

namespace Listener

/-! ## The table -/

section Table

variable {s : Listener}

/-- The request with a key is no longer in the table. -/
def unregister (peerId : Identity) (connectionId : ConnectionId) (s : Listener) : Listener :=
  { s with
    connectionRequests := s.connectionRequests.insert peerId
      (((s.connectionRequests.lookup peerId).getD ∅).erase connectionId) }

theorem registered_register (p p' : Identity) (c c' : ConnectionId) :
    (s.register p c).registered p' c' = if (p', c') = (p, c) then some s.requests.length else s.registered p' c' := by
  unfold registered register
  by_cases hp : p' = p
  · subst hp
    dsimp only
    rw [AList.lookup_insert, Option.bind_some]
    by_cases hc : c' = c
    · subst hc
      rw [if_pos rfl, AList.lookup_insert]
    · rw [if_neg fun h => hc (Prod.mk.inj h).2, AList.lookup_insert_ne hc]
      cases s.connectionRequests.lookup p' <;> rfl
  · dsimp only
    rw [if_neg fun h => hp (Prod.mk.inj h).1, AList.lookup_insert_ne hp]

theorem registered_unregister (p p' : Identity) (c c' : ConnectionId) :
    (s.unregister p c).registered p' c' = if (p', c') = (p, c) then none else s.registered p' c' := by
  unfold registered unregister
  by_cases hp : p' = p
  · subst hp
    dsimp only
    rw [AList.lookup_insert, Option.bind_some]
    by_cases hc : c' = c
    · subst hc
      rw [if_pos rfl, AList.lookup_erase]
    · rw [if_neg fun h => hc (Prod.mk.inj h).2, AList.lookup_erase_ne hc]
      cases s.connectionRequests.lookup p' <;> rfl
  · dsimp only
    rw [if_neg fun h => hp (Prod.mk.inj h).1, AList.lookup_insert_ne hp]

theorem takeRequest_eq (p : Identity) (c : ConnectionId) :
    s.takeRequest p c = ((s.registered p c), if (s.registered p c).isSome then s.unregister p c else s) := by
  unfold takeRequest registered unregister
  cases hp : s.connectionRequests.lookup p with
  | none => rfl
  | some peerMap =>
    dsimp only
    rw [Option.bind_some]
    cases hc : peerMap.lookup c <;> rfl

end Table

variable {pki : WebPki} {tls : Option RuntimeTlsConfig} {s t : Listener}

theorem validPeer_anchored {now : Nat} {p : Identity} {stream : Stream} (h : validPeer pki tls now p stream = true)
    {config : RuntimeTlsConfig} (htls : tls = some config) (hvalidate : config.validatePeerIds = true) :
    ∃ root chain, config.peerCerts.lookup p = some root ∧ stream.maybeTlsCertChain = some chain ∧
      isChainAnchoredToRoot pki now chain root = true := by
  subst htls
  unfold validPeer at h
  dsimp only at h
  rw [if_pos hvalidate] at h
  cases hroot : config.peerCerts.lookup p with
  | none =>
    rw [hroot] at h
    cases h
  | some root =>
    cases hchain : stream.maybeTlsCertChain with
    | none =>
      rw [hroot, hchain] at h
      cases h
    | some chain =>
      rw [hroot, hchain] at h
      exact ⟨root, chain, rfl, rfl, h⟩

/-- A stream is closed, or it takes the request with its key out of the table. -/
theorem handle_cases (id : Nat) (stream : Stream) (now : Nat) (s : Listener) :
    handle pki tls id stream now s = s.close id ∨
      ∃ p c r, (ListenerAction.accept stream now).key = some (p, c) ∧ Entitled pki tls stream now p c ∧
        s.registered p c = some r ∧ (handle pki tls id stream now s = (s.unregister p c).close id ∨
          handle pki tls id stream now s = (s.unregister p c).send r id) := by
  unfold handle
  cases hin : inbound stream with
  | error e => exact Or.inl rfl
  | ok result =>
    obtain ⟨⟨p, c⟩, stream'⟩ := result
    dsimp only
    by_cases hvalid : validPeer pki tls now p stream' = true
    · rw [if_neg (not_not.mpr hvalid), takeRequest_eq]
      cases hr : s.registered p c with
      | none => exact Or.inl rfl
      | some r =>
        right
        obtain ⟨hinput, hcert⟩ := inbound_eq_ok hin
        have hkey : (ListenerAction.accept stream now).key = some (p, c) := by
          unfold ListenerAction.key
          dsimp only
          rw [hin]
        refine ⟨p, c, r, hkey, ⟨⟨_, hinput⟩, fun config htls hvalidate => ?_⟩, hr, ?_⟩
        · rw [← hcert]
          exact validPeer_anchored hvalid htls hvalidate
        · dsimp only
          cases inboundOk stream' with
          | error e => exact Or.inl rfl
          | ok stream'' => exact Or.inr rfl
    · rw [if_pos hvalid]
      exact Or.inl rfl

/-- A stream has been accepted. -/
def addStream (stream : Stream) (now : Nat) (s : Listener) : Listener :=
  { s with streams := s.streams ++ [(stream, now)] }

theorem act_accept_cases (s : Listener) (stream : Stream) (now : Nat) :
    act pki tls s (.accept stream now) = (s.addStream stream now).close s.streams.length ∨
      ∃ p c r, (ListenerAction.accept stream now).key = some (p, c) ∧ Entitled pki tls stream now p c ∧
        s.registered p c = some r ∧
        (act pki tls s (.accept stream now) = ((s.addStream stream now).unregister p c).close s.streams.length ∨
          act pki tls s (.accept stream now) = ((s.addStream stream now).unregister p c).send r s.streams.length) :=
  handle_cases s.streams.length stream now (s.addStream stream now)

/-! ## The invariant -/

/-- The requests that were answered. -/
def answered (s : Listener) : List Nat := (s.given ++ s.dropped).map Prod.snd

/-- The streams that were sent to a requester or closed. -/
def settled (s : Listener) : List Nat := (s.given ++ s.dropped).map Prod.fst ++ s.closed

/-- The first `n` streams have been handled. -/
structure Inv (pki : WebPki) (tls : Option RuntimeTlsConfig) (n : Nat) (s : Listener) : Prop where
  /-- A request in the table has the key it is entered under, and was not answered. -/
  table : ∀ p c r, s.registered p c = some r → s.requests[r]? = some (p, c) ∧ r ∉ s.answered
  answered_lt : ∀ r ∈ s.answered, r < s.requests.length
  answered_nodup : s.answered.Nodup
  /-- Every stream that was handled has one fate. -/
  settled : s.settled.Perm (List.range n)
  given : ∀ k r, (k, r) ∈ s.given → ∃ stream now p c, s.streams[k]? = some (stream, now) ∧
    s.requests[r]? = some (p, c) ∧ Entitled pki tls stream now p c
  dropped : ∀ k r, (k, r) ∈ s.dropped → r ∈ s.gone

theorem inv_init : Inv pki tls 0 init where
  table _ _ _ h := by cases h
  answered_lt _ h := by cases h
  answered_nodup := List.nodup_nil
  settled := List.Perm.refl _
  given _ _ h := by cases h
  dropped _ _ h := by cases h

theorem getElem?_append_of_some {α : Type} {xs ys : List α} {i : Nat} {x : α} (h : xs[i]? = some x) :
    (xs ++ ys)[i]? = some x := by
  rw [List.getElem?_append_left (List.getElem?_eq_some_iff.mp h).1]
  exact h

variable {n : Nat}

theorem Inv.register (h : Inv pki tls n s) (p : Identity) (c : ConnectionId) : Inv pki tls n (s.register p c) where
  table p' c' r hr := by
    rw [registered_register] at hr
    split_ifs at hr with hkey
    · cases hr
      refine ⟨?_, fun hmem => (h.answered_lt _ hmem).false⟩
      rw [hkey]
      exact List.getElem?_concat_length
    · obtain ⟨hreq, hnot⟩ := h.table p' c' r hr
      exact ⟨getElem?_append_of_some hreq, hnot⟩
  answered_lt r hr := by
    show r < (s.requests ++ [(p, c)]).length
    rw [List.length_append]
    exact (h.answered_lt r hr).trans (Nat.lt_succ_self _)
  answered_nodup := h.answered_nodup
  settled := h.settled
  given k r hk := by
    obtain ⟨stream, now, p', c', hstream, hreq, hent⟩ := h.given k r hk
    exact ⟨stream, now, p', c', hstream, getElem?_append_of_some hreq, hent⟩
  dropped := h.dropped

theorem Inv.unregister (h : Inv pki tls n s) (p : Identity) (c : ConnectionId) :
    Inv pki tls n (s.unregister p c) where
  table p' c' r hr := by
    rw [registered_unregister] at hr
    split_ifs at hr with hkey
    exact h.table p' c' r hr
  answered_lt := h.answered_lt
  answered_nodup := h.answered_nodup
  settled := h.settled
  given := h.given
  dropped := h.dropped

theorem Inv.addStream (h : Inv pki tls n s) (stream : Stream) (now : Nat) :
    Inv pki tls n (s.addStream stream now) where
  table := h.table
  answered_lt := h.answered_lt
  answered_nodup := h.answered_nodup
  settled := h.settled
  given k r hk := by
    obtain ⟨stream', now', p, c, hstream, hreq, hent⟩ := h.given k r hk
    exact ⟨stream', now', p, c, getElem?_append_of_some hstream, hreq, hent⟩
  dropped := h.dropped

theorem Inv.close (h : Inv pki tls n s) : Inv pki tls (n + 1) (s.close n) where
  table := h.table
  answered_lt := h.answered_lt
  answered_nodup := h.answered_nodup
  settled := by
    have hsettled : (s.close n).settled = s.settled ++ [n] := (List.append_assoc _ _ _).symm
    rw [hsettled, List.range_succ]
    exact h.settled.append_right _
  given := h.given
  dropped := h.dropped

theorem answered_send (r k : Nat) : (s.send r k).answered.Perm (r :: s.answered) := by
  unfold answered
  rw [List.map_append, List.map_append]
  unfold send
  split_ifs with hgone
  · rw [List.map_append, ← List.append_assoc]
    exact List.perm_append_comm
  · rw [List.map_append, List.append_assoc]
    exact List.perm_middle

theorem settled_send (r k : Nat) : (s.send r k).settled.Perm (k :: s.settled) := by
  unfold settled
  rw [List.map_append, List.map_append]
  unfold send
  split_ifs with hgone
  · rw [List.map_append, ← List.append_assoc, List.append_assoc]
    exact List.perm_middle
  · rw [List.map_append, List.append_assoc, List.append_assoc, List.append_assoc]
    exact List.perm_middle

@[simp] theorem requests_send (r k : Nat) : (s.send r k).requests = s.requests := by
  unfold send
  split_ifs <;> rfl

@[simp] theorem streams_send (r k : Nat) : (s.send r k).streams = s.streams := by
  unfold send
  split_ifs <;> rfl

@[simp] theorem registered_send (r k : Nat) (p : Identity) (c : ConnectionId) :
    (s.send r k).registered p c = s.registered p c := by
  unfold send
  split_ifs <;> rfl

theorem mem_given_send {r k r' k' : Nat} (h : (k', r') ∈ (s.send r k).given) :
    (k', r') ∈ s.given ∨ (k' = k ∧ r' = r) := by
  unfold send at h
  split_ifs at h with hgone
  · exact Or.inl h
  · rcases List.mem_append.mp h with h | h
    · exact Or.inl h
    · exact Or.inr (Prod.mk.inj (List.mem_singleton.mp h))

theorem mem_dropped_send {r k r' k' : Nat} (h : (k', r') ∈ (s.send r k).dropped) :
    (k', r') ∈ s.dropped ∨ (r' = r ∧ r ∈ s.gone) := by
  unfold send at h
  split_ifs at h with hgone
  · rcases List.mem_append.mp h with h | h
    · exact Or.inl h
    · exact Or.inr ⟨(Prod.mk.inj (List.mem_singleton.mp h)).2, hgone⟩
  · exact Or.inl h

theorem gone_send (r k : Nat) : (s.send r k).gone = s.gone := by
  unfold send
  split_ifs <;> rfl

/-- The stream `n` is sent to a request that is not in the table any more. -/
theorem Inv.send (h : Inv pki tls n s) {r : Nat} {p : Identity} {c : ConnectionId} {stream : Stream} {now : Nat}
    (hr : s.requests[r]? = some (p, c)) (hnot : r ∉ s.answered) (htable : ∀ p' c', s.registered p' c' ≠ some r)
    (hstream : s.streams[n]? = some (stream, now)) (hent : Entitled pki tls stream now p c) :
    Inv pki tls (n + 1) (s.send r n) where
  table p' c' r' hr' := by
    rw [registered_send] at hr'
    rw [requests_send, (answered_send r n).mem_iff, List.mem_cons, not_or]
    obtain ⟨hreq, hnot'⟩ := h.table p' c' r' hr'
    exact ⟨hreq, fun heq => htable p' c' (heq ▸ hr'), hnot'⟩
  answered_lt r' hr' := by
    rw [requests_send]
    rcases List.mem_cons.mp ((answered_send r n).mem_iff.mp hr') with rfl | hr'
    · exact (List.getElem?_eq_some_iff.mp hr).1
    · exact h.answered_lt r' hr'
  answered_nodup := (answered_send r n).nodup_iff.mpr (List.nodup_cons.mpr ⟨hnot, h.answered_nodup⟩)
  settled := by
    have hlast : (n :: List.range n).Perm (List.range n ++ [n]) := (List.perm_append_singleton n _).symm
    rw [List.range_succ]
    exact (settled_send r n).trans ((h.settled.cons n).trans hlast)
  given k r' hk := by
    rw [requests_send, streams_send]
    rcases mem_given_send hk with hk | ⟨rfl, rfl⟩
    · exact h.given k r' hk
    · exact ⟨stream, now, p, c, hstream, hr, hent⟩
  dropped k r' hk := by
    rw [gone_send]
    rcases mem_dropped_send hk with hk | ⟨rfl, hgone⟩
    · exact h.dropped k r' hk
    · exact hgone

theorem step_eq {a : ListenerAction} (h : step pki tls s a = some t) : t = act pki tls s a := by
  unfold step at h
  split_ifs at h with hrun
  exact (Option.some.inj h).symm

theorem act_inv (h : Inv pki tls s.streams.length s) (a : ListenerAction) :
    Inv pki tls (act pki tls s a).streams.length (act pki tls s a) := by
  cases a with
  | request p c => exact h.register p c
  | accept stream now =>
    have hadd := h.addStream stream now
    have hlast : (s.addStream stream now).streams[s.streams.length]? = some (stream, now) :=
      List.getElem?_concat_length
    have hlen : (s.addStream stream now).streams.length = s.streams.length + 1 := List.length_append
    rcases act_accept_cases s stream now with hclose | ⟨p, c, r, -, hent, hr, hclose | hsend⟩
    · rw [hclose]
      exact hlen ▸ hadd.close
    · rw [hclose]
      exact hlen ▸ (hadd.unregister p c).close
    · rw [hsend, streams_send]
      obtain ⟨hreq, hnot⟩ := hadd.table p c r hr
      refine hlen ▸ (hadd.unregister p c).send hreq hnot (fun p' c' hr' => ?_) hlast hent
      rw [registered_unregister] at hr'
      split_ifs at hr' with hkey
      -- the request was entered under one key only
      exact hkey (Option.some.inj ((hadd.table p' c' r hr').1.symm.trans hreq))
  | acceptError => exact h
  | leave r =>
    exact ⟨h.table, h.answered_lt, h.answered_nodup, h.settled, h.given,
      fun k r' hk => Finset.mem_insert_of_mem (h.dropped k r' hk)⟩
  | stop => exact ⟨fun p c r hr => (by cases hr), h.answered_lt, h.answered_nodup, h.settled, h.given, h.dropped⟩

/-- The requests with other keys than that of an action stay registered. -/
theorem registered_act {a : ListenerAction} (hstop : a ≠ .stop) {p : Identity} {c : ConnectionId}
    (hkey : a.key ≠ some (p, c)) : (act pki tls s a).registered p c = s.registered p c := by
  cases a with
  | request p' c' =>
    show (s.register p' c').registered p c = _
    rw [registered_register, if_neg fun h => hkey (congrArg some h.symm)]
  | accept stream now =>
    rcases act_accept_cases s stream now with hclose | ⟨p', c', r, hkey', -, -, hclose | hsend⟩
    · rw [hclose]
      rfl
    · have hne : (p, c) ≠ (p', c') := fun h => hkey (h ▸ hkey')
      rw [hclose]
      exact (registered_unregister p' p c' c).trans (if_neg hne)
    · have hne : (p, c) ≠ (p', c') := fun h => hkey (h ▸ hkey')
      rw [hsend, registered_send]
      exact (registered_unregister p' p c' c).trans (if_neg hne)
  | acceptError => rfl
  | leave r => rfl
  | stop => exact absurd rfl hstop

/-- **Inbound connections.** After every run of the accept loop a stream that was given to a requester has announced
the peer and the connection that were requested, and its certificate is anchored to the root of this peer if that is
checked; no stream and no request is in two answers; every stream that was accepted was given to a requester, or
dropped because its requester had gone, or closed, and only one of these; and a turn of the loop leaves the requests
with other keys registered. -/
theorem streams_to_requesters (pki : WebPki) (tls : Option RuntimeTlsConfig) (actions : List ListenerAction)
    (s : Listener) (hrun : Transition.run (step pki tls) init actions = some s) :
    (∀ k r, (k, r) ∈ s.given → ∃ stream now p c, s.streams[k]? = some (stream, now) ∧ s.requests[r]? = some (p, c) ∧
      Entitled pki tls stream now p c) ∧
    (s.given.map Prod.fst).Nodup ∧ (s.given.map Prod.snd).Nodup ∧
    (s.given.map Prod.fst ++ s.dropped.map Prod.fst ++ s.closed).Perm (List.range s.streams.length) ∧
    (∀ k r, (k, r) ∈ s.dropped → r ∈ s.gone) ∧
    ∀ a t, step pki tls s a = some t → a ≠ .stop → ∀ p c, a.key ≠ some (p, c) →
      t.registered p c = s.registered p c := by
  have hinv : Inv pki tls s.streams.length s :=
    Transition.run_invariant (I := fun s => Inv pki tls s.streams.length s)
      (fun s a t ht hs => step_eq ht ▸ act_inv hs a) hrun inv_init
  have hsettled := hinv.settled
  have hanswered := hinv.answered_nodup
  unfold settled at hsettled
  unfold answered at hanswered
  rw [List.map_append] at hsettled hanswered
  have hnodup : (s.given.map Prod.fst ++ s.dropped.map Prod.fst ++ s.closed).Nodup :=
    hsettled.nodup_iff.mpr List.nodup_range
  refine ⟨hinv.given, hnodup.of_append_left.of_append_left, hanswered.of_append_left, hsettled, hinv.dropped, ?_⟩
  intro a t ht hstop p c hkey
  rw [step_eq ht]
  exact registered_act hstop hkey

/-- A verifier that knows one root, which signs one leaf. -/
def oneRoot : WebPki := ⟨(· = [1]), (· = [1]), fun root leaf _ _ => root = [1] ∧ leaf = [2]⟩

/-- The certificates of a node with one peer are checked. -/
def onePeer : RuntimeTlsConfig := ⟨(∅ : AList fun _ : Identity => Bytes).insert "bob" [1], true⟩

/-- The peer asks for its connection. -/
def bobStream : Stream := ⟨announcement "bob" 7, [true, true], [], some [[2], [3]], "connection reset"⟩

theorem streams_to_requesters_bob :
    ∃ s, Transition.run (step oneRoot (some onePeer)) init [.request "bob" 7, .accept bobStream 0] = some s ∧
      s.given = [(0, 0)] ∧ Entitled oneRoot (some onePeer) bobStream 0 "bob" 7 := by
  have hinput : bobStream.input = announcement "bob" 7 ++ [] := (List.append_nil _).symm
  have hin : inbound bobStream = _ := inbound_announcement hinput (by decide) rfl
  refine ⟨act oneRoot (some onePeer) (init.register "bob" 7) (.accept bobStream 0), rfl, ?_⟩
  have hact : act oneRoot (some onePeer) (init.register "bob" 7) (.accept bobStream 0) =
      (((init.register "bob" 7).addStream bobStream 0).unregister "bob" 7).send 0 0 := by
    unfold act handle
    dsimp only
    rw [hin]
    rfl
  rw [hact]
  refine ⟨rfl, ?_⟩
  obtain ⟨hall, -⟩ := streams_to_requesters oneRoot (some onePeer) [.request "bob" 7, .accept bobStream 0] _
    (congrArg some hact)
  obtain ⟨stream, now, p, c, hstream, hreq, hent⟩ := hall 0 0 (List.mem_singleton_self _)
  cases hstream
  cases hreq
  exact hent

end Listener

end AmpcCommon.Tcp
