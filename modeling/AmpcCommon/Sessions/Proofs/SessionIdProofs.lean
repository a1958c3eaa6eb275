import AmpcCommon.Protocol.Proofs.ShuffleProofs
import AmpcCommon.Sessions.SessionIds

/-!
# Session ids and roles

Before every call there is space for the ids of the call (`HasSpace`), at the upper end of `u32` too, so neither the ids
nor their sums with a role overflow. The three places that rotate a role by the session then agree.
-/

namespace AmpcCommon.Sessions

open Protocol (Session)

/-! ## The counter -/

theorem toNat_saturatingAdd (a b : BitVec 32) : (saturatingAdd a b).toNat = min (a.toNat + b.toNat) u32Max := by
  unfold saturatingAdd BitVec.uaddOverflow u32Max
  simp only [decide_eq_true_eq]
  split_ifs with h
  · rw [BitVec.toNat_allOnes]
    omega
  · rw [BitVec.toNat_add, Nat.mod_eq_of_lt (by omega)]
    omega

/-- The counter of the code is the one of the joint rounds. -/
theorem toNat_advanceSessionId (numSessions next : BitVec 32) :
    (advanceSessionId numSessions next).toNat = advance numSessions.toNat next.toNat := by
  have hle : BitVec.allOnes 32 - numSessions ≤ saturatingAdd next numSessions ↔
      min (next.toNat + numSessions.toNat) u32Max ≥ u32Max - numSessions.toNat := by
    have hn := numSessions.isLt
    rw [BitVec.le_def, toNat_saturatingAdd, BitVec.toNat_sub, BitVec.toNat_allOnes]
    unfold u32Max
    omega
  unfold advanceSessionId advance
  simp only [hle]
  split_ifs
  · rfl
  · exact toNat_saturatingAdd next numSessions

/-- There is space for the ids of a call: the counter is zero, or its last id is below `u32::MAX - 1`. -/
def HasSpace (numSessions next : BitVec 32) : Prop :=
  next.toNat = 0 ∨ next.toNat + numSessions.toNat < u32Max

theorem hasSpace_advanceSessionId (numSessions next : BitVec 32) :
    HasSpace numSessions (advanceSessionId numSessions next) := by
  unfold HasSpace
  rw [toNat_advanceSessionId]
  generalize hsum : min (next.toNat + numSessions.toNat) u32Max = sum
  have hadvance : advance numSessions.toNat next.toNat = if sum ≥ u32Max - numSessions.toNat then 0 else sum := by
    rw [← hsum]
    rfl
  rw [hadvance]
  split_ifs with h
  · exact .inl rfl
  · right
    omega

theorem HasSpace.add_le {numSessions next : BitVec 32} (h : HasSpace numSessions next)
    (hn : numSessions.toNat ≤ 2 ^ 32 - 2) : next.toNat + numSessions.toNat ≤ 2 ^ 32 - 2 := by
  unfold HasSpace u32Max at h
  rcases h with h | h <;> omega

/-! ## The ids of a call -/

theorem map_toNat_rangeU32 (start stop : BitVec 32) :
    (rangeU32 start stop).map BitVec.toNat = List.range' start.toNat (stop.toNat - start.toNat) := by
  unfold rangeU32
  rw [List.map_map]
  conv_rhs => rw [← List.map_id (List.range' _ _)]
  refine List.map_congr_left fun i hi => ?_
  have hlt := stop.isLt
  rw [List.mem_range'_1] at hi
  exact Nat.mod_eq_of_lt (by omega)

theorem nodup_rangeU32 (start stop : BitVec 32) : (rangeU32 start stop).Nodup := by
  have h : ((rangeU32 start stop).map BitVec.toNat).Nodup := by
    rw [map_toNat_rangeU32]
    exact List.nodup_range'
  exact h.of_map

/-- Every session finds its channels. -/
theorem sessionLoop_eq {ids : List (BitVec 32)} (hids : ids.Nodup) {inboundRx : InboundChannels}
    (h : ∀ peer, ∀ id ∈ ids, id ∈ inboundRx peer) : sessionLoop ids inboundRx = .ok ids := by
  induction ids generalizing inboundRx with
  | nil => rfl
  | cons id ids ih =>
    obtain ⟨hnot, hids⟩ := List.nodup_cons.mp hids
    have hrest : ∀ peer, ∀ id' ∈ ids, id' ∈ (inboundRx peer).erase id := by
      intro peer id' hid'
      have hne : id' ≠ id := by
        rintro rfl
        exact hnot hid'
      exact (List.mem_erase_of_ne hne).mpr (h peer id' (List.mem_cons_of_mem _ hid'))
    unfold sessionLoop
    rw [if_pos fun peer => h peer id List.mem_cons_self, ih hids hrest]
    rfl

theorem makeSessions_eq {config : MpcConfig} {next : BitVec 32}
    (h : next.toNat + config.numSessions.toNat < 2 ^ 32) :
    makeSessions config next = .ok (rangeU32 next (next + config.numSessions)) := by
  have hadd : addU32 next config.numSessions = .ok (next + config.numSessions) := by
    unfold addU32 BitVec.uaddOverflow
    rw [if_neg (by simpa using h)]
  unfold makeSessions makeChannels makeSessionsInner
  rw [hadd]
  exact sessionLoop_eq (nodup_rangeU32 _ _) fun _ _ hid => hid

theorem map_toNat_ids {numSessions next : BitVec 32} (h : next.toNat + numSessions.toNat < 2 ^ 32) :
    (rangeU32 next (next + numSessions)).map BitVec.toNat = List.range' next.toNat numSessions.toNat := by
  rw [map_toNat_rangeU32, BitVec.toNat_add, Nat.mod_eq_of_lt h, Nat.add_sub_cancel_left]

/-- The sessions of a call that succeeds have the ids from the counter on, and the role of the handle. -/
theorem networkSessions_eq_ok {env : Environment} {h : MpcNetworkHandle} {sessions : List Session}
    (hspace : h.nextSessionId.toNat + h.config.numSessions.toNat < 2 ^ 32)
    (hok : networkSessions env h = .ok sessions) :
    sessions = (rangeU32 h.nextSessionId (h.nextSessionId + h.config.numSessions)).map fun sessionId =>
      { ownRole := h.partyIndex, sessionId := sessionId } := by
  unfold networkSessions at hok
  rw [makeSessions_eq hspace] at hok
  obtain ⟨_, -, hok⟩ := Outcome.bind_eq_ok.mp hok
  obtain ⟨_, hids, hok⟩ := Outcome.bind_eq_ok.mp hok
  obtain ⟨_, -, hok⟩ := Outcome.bind_eq_ok.mp hok
  cases hids
  cases hok
  rfl

/-! ## Runs of calls -/

theorem makeNetworkSessions_ok {env : Environment} {h : MpcNetworkHandle} {sessions : List Session}
    (hok : networkSessions env h = .ok sessions) :
    makeNetworkSessions env h =
      (.ok sessions, { h with nextSessionId := advanceSessionId h.config.numSessions h.nextSessionId }) := by
  unfold makeNetworkSessions
  rw [hok]

theorem makeNetworkSessions_error {env : Environment} {h : MpcNetworkHandle} {e : Failure}
    (herr : networkSessions env h = .error e) : makeNetworkSessions env h = (.error e, h) := by
  unfold makeNetworkSessions
  rw [herr]

/-- What holds of a handle before every call. -/
structure MpcNetworkHandle.Inv (config : MpcConfig) (p : Party) (h : MpcNetworkHandle) : Prop where
  config_eq : h.config = config
  partyIndex_eq : h.partyIndex = p
  space : HasSpace config.numSessions h.nextSessionId

namespace MpcNetworkHandle.Inv

variable {config : MpcConfig} {p : Party} {h : MpcNetworkHandle}

protected theorem new (config : MpcConfig) (p : Party) : Inv config p (.new config p) where
  config_eq := rfl
  partyIndex_eq := rfl
  space := .inl rfl

theorem setNext (hinv : Inv config p h) {next : BitVec 32} (hnext : HasSpace config.numSessions next) :
    Inv config p { h with nextSessionId := next } where
  config_eq := hinv.config_eq
  partyIndex_eq := hinv.partyIndex_eq
  space := hnext

/-- A call that fails leaves the counter where it is. -/
theorem makeNetworkSessions (hinv : Inv config p h) (env : Environment) :
    Inv config p (Sessions.makeNetworkSessions env h).2 := by
  cases hcall : networkSessions env h with
  | error e =>
    rw [makeNetworkSessions_error hcall]
    exact hinv
  | ok sessions =>
    rw [makeNetworkSessions_ok hcall]
    have hnext := hasSpace_advanceSessionId h.config.numSessions h.nextSessionId
    exact hinv.setNext (hinv.config_eq ▸ hnext)

theorem afterCalls (hinv : Inv config p h) (envs : List Environment) :
    Inv config p (Sessions.afterCalls h envs) := by
  induction envs generalizing h with
  | nil => exact hinv
  | cons env envs ih => exact ih (hinv.makeNetworkSessions env)

theorem add_le (hinv : Inv config p h) (hn : config.numSessions.toNat ≤ 2 ^ 32 - 2) :
    h.nextSessionId.toNat + config.numSessions.toNat ≤ 2 ^ 32 - 2 :=
  hinv.space.add_le hn

/-- The sessions of the next call, if it succeeds. -/
theorem sessions (hinv : Inv config p h) (hn : config.numSessions.toNat ≤ 2 ^ 32 - 2) {env : Environment}
    {sessions : List Session} (hok : (Sessions.makeNetworkSessions env h).1 = .ok sessions) :
    sessions.map (fun s => s.sessionId.toNat) = List.range' h.nextSessionId.toNat config.numSessions.toNat ∧
      ∀ s ∈ sessions, s.ownRole = p ∧ s.sessionId.toNat ≤ 2 ^ 32 - 3 := by
  have hle := hinv.add_le hn
  obtain ⟨rfl, rfl, -⟩ := hinv
  have hspace : h.nextSessionId.toNat + h.config.numSessions.toNat < 2 ^ 32 := by omega
  have hnet : networkSessions env h = .ok sessions := by
    cases hcall : networkSessions env h with
    | error e =>
      rw [makeNetworkSessions_error hcall] at hok
      cases hok
    | ok sessions' =>
      rw [makeNetworkSessions_ok hcall] at hok
      exact hok
  rw [networkSessions_eq_ok hspace hnet]
  refine ⟨?_, ?_⟩
  · rw [List.map_map]
    exact map_toNat_ids hspace
  · intro s hs
    obtain ⟨sessionId, hid, rfl⟩ := List.mem_map.mp hs
    have hmem := List.mem_map_of_mem (f := BitVec.toNat) hid
    rw [map_toNat_ids hspace, List.mem_range'_1] at hmem
    refine ⟨rfl, ?_⟩
    show sessionId.toNat ≤ _
    omega

end MpcNetworkHandle.Inv

/-! ## Roles -/

/-- The role in `u32` is the role in `usize` when the sum does not overflow. -/
theorem shuffleRole_eq_roleIndex {s : Session} (h : s.sessionId.toNat ≤ 2 ^ 32 - 3) (overflowChecks : Bool) :
    s.shuffleRole overflowChecks = .ok s.roleIndex :=
  (Protocol.shuffleRole_eq (by omega) overflowChecks s.ownRole).trans
    (congrArg Except.ok (Protocol.roleIndex_eq s.ownRole s.sessionId).symm)

/-- The roles of the parties of a session go around the ring as the parties do. -/
theorem roleIndex_next {s t : Session} (hid : t.sessionId = s.sessionId) (hrole : t.ownRole = s.ownRole + 1) :
    t.roleIndex = (s.roleIndex + 1) % 3 := by
  unfold Session.roleIndex
  have hval : t.ownRole.val = (s.ownRole.val + 1) % 3 := by
    rw [hrole]
    rfl
  rw [hid, hval]
  omega

theorem roleIndex_injective {s : Party → Session} (hid : ∀ p q, (s p).sessionId = (s q).sessionId)
    (hrole : ∀ p, (s p).ownRole = p) : Function.Injective fun p => (s p).roleIndex := by
  intro p q h
  have h' : (p.val + (s p).sessionId.toNat) % 3 = (q.val + (s p).sessionId.toNat) % 3 := by
    have h'' : (s p).roleIndex = (s q).roleIndex := h
    unfold Session.roleIndex at h''
    rwa [hrole, hrole, hid q p] at h''
  have hp := p.isLt
  have hq := q.isLt
  exact Fin.ext (by omega)

/-- **Session ids and roles are consistent up to the end of `u32`.** After any calls of the three handles, whatever
their peers let fail: the ids of the next call do not overflow and are sequential, the role of a session is the same in
`u32` and in `usize`, and the roles of the parties that share an id are distinct and in ring order. -/
theorem session_ids_and_roles (numSessions : BitVec 32) (hn : numSessions.toNat ≤ 2 ^ 32 - 2)
    (envs : Party → List Environment) :
    let handle p := afterCalls (.new ⟨numSessions⟩ p) (envs p)
    (∀ p, (handle p).nextSessionId.toNat + numSessions.toNat < 2 ^ 32 ∧
      ∃ ids, makeSessions ⟨numSessions⟩ (handle p).nextSessionId = .ok ids) ∧
    (∀ p env sessions, (makeNetworkSessions env (handle p)).1 = .ok sessions →
      sessions.length = numSessions.toNat ∧
      sessions.map (fun s => s.sessionId.toNat) =
        List.range' (handle p).nextSessionId.toNat numSessions.toNat ∧
      (sessions.map Session.sessionId).Nodup ∧
      ∀ s ∈ sessions, s.sessionId.toNat ≤ 2 ^ 32 - 3 ∧ s.sessionId.toNat + s.ownRole.val < 2 ^ 32 ∧
        ∀ overflowChecks, s.shuffleRole overflowChecks = .ok s.roleIndex) ∧
    ∀ (env : Party → Environment) (sessions : Party → List Session) (s : Party → Session),
      (∀ p, (makeNetworkSessions (env p) (handle p)).1 = .ok (sessions p) ∧ s p ∈ sessions p) →
      (∀ p q, (s p).sessionId = (s q).sessionId) →
      (Function.Injective fun p => (s p).roleIndex) ∧
        ∀ p, (s p).roleIndex < 3 ∧ (s (p + 1)).roleIndex = ((s p).roleIndex + 1) % 3 := by
  intro handle
  have hinv p : (handle p).Inv ⟨numSessions⟩ p := (MpcNetworkHandle.Inv.new ⟨numSessions⟩ p).afterCalls (envs p)
  refine ⟨?_, ?_, ?_⟩
  · intro p
    have hle : (handle p).nextSessionId.toNat + numSessions.toNat ≤ 2 ^ 32 - 2 := (hinv p).add_le hn
    have hspace : (handle p).nextSessionId.toNat + numSessions.toNat < 2 ^ 32 := by omega
    exact ⟨hspace, _, makeSessions_eq hspace⟩
  · intro p env sessions hok
    obtain ⟨hids, hmem⟩ := (hinv p).sessions hn hok
    have hlen := congrArg List.length hids
    rw [List.length_map, List.length_range'] at hlen
    refine ⟨hlen, hids, ?_, ?_⟩
    · have hnodup : ((sessions.map Session.sessionId).map BitVec.toNat).Nodup := by
        rw [List.map_map]
        exact hids ▸ List.nodup_range'
      exact hnodup.of_map
    · intro s hs
      obtain ⟨-, hle⟩ := hmem s hs
      have hrole := s.ownRole.isLt
      exact ⟨hle, by omega, shuffleRole_eq_roleIndex hle⟩
  · intro env sessions s hs hid
    have hrole p : (s p).ownRole = p := by
      obtain ⟨hok, hmem⟩ := hs p
      exact (((hinv p).sessions hn hok).2 (s p) hmem).1
    refine ⟨roleIndex_injective hid hrole, fun p => ⟨Nat.mod_lt _ (by decide), ?_⟩⟩
    exact roleIndex_next (hid _ _) (by rw [hrole, hrole])

/-- The second successful call of handles with two sessions. -/
theorem session_ids_of_two :
    let ok : Environment := ⟨.ok (), .ok ()⟩
    let handle p := afterCalls (.new ⟨2⟩ p) [ok]
    (∀ p, (makeNetworkSessions ok (handle p)).1 = .ok [⟨p, 2⟩, ⟨p, 3⟩]) ∧
      Function.Injective fun p => (Session.mk p 3).roleIndex := by
  intro ok handle
  have hfirst p : networkSessions ok (.new ⟨2⟩ p) = .ok [⟨p, 0⟩, ⟨p, 1⟩] := rfl
  have hsecond p : networkSessions ok ⟨⟨2⟩, advanceSessionId 2 0, p⟩ = .ok [⟨p, 2⟩, ⟨p, 3⟩] := rfl
  have hok p : (makeNetworkSessions ok (handle p)).1 = .ok [⟨p, 2⟩, ⟨p, 3⟩] := by
    unfold handle afterCalls afterCalls
    rw [makeNetworkSessions_ok (hfirst p)]
    exact congrArg Prod.fst (makeNetworkSessions_ok (hsecond p))
  refine ⟨hok, ?_⟩
  have h := (session_ids_and_roles 2 (by decide) fun _ => [ok]).2.2
  exact (h (fun _ => ok) _ (fun p => ⟨p, 3⟩) (fun p => ⟨hok p, by simp⟩) fun _ _ => rfl).1

end AmpcCommon.Sessions
