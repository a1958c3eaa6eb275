import AmpcCommon.Startup.Barriers

/-!
# The startup barriers, proofs

The incarnations of a node are ordered by their start, and only the newest one answers. So an answer bounds what can
be in a verified set: an incarnation that has the answer of `x` has verified no newer incarnation of the node of `x`
(`Answered`). At the end of the visibility barrier the newest verified incarnation of a peer has verified this one
(`Sound.visible`), and this is the one that `wait_for_others_ready` accepts.
-/

namespace AmpcCommon.Startup

/-- An answer is there for the polls of this phase. -/
def Phase.answers : Phase → Answers
  | .unready answers => answers
  | .visibility answers => answers
  | .waiting answers => answers
  | .done accepted => accepted
  | _ => noAnswers

/-- The responses of the round that are not checked yet. -/
def Phase.responses : Phase → List ReadyProbeResponse
  | .unreadyCheck responses _ => responses
  | _ => []

/-- The phase is before the end of `wait_for_startup_barriers`. -/
def Phase.syncing : Phase → Bool
  | .unready _ => true
  | .unreadyCheck _ _ => true
  | .visibility _ => true
  | _ => false

/-- `wait_for_startup_barriers` has returned without an error. -/
def Phase.passed : Phase → Bool
  | .synced => true
  | .waiting _ => true
  | .done _ => true
  | _ => false

/-- A phase without answers, before the end of the barriers or failed. -/
structure Phase.Fresh (phase : Phase) : Prop where
  responses : phase.responses = []
  answers : phase.answers = noAnswers
  passed : phase.passed = false

theorem Phase.fresh_unready : (Phase.unready noAnswers).Fresh := ⟨rfl, rfl, rfl⟩

theorem Phase.fresh_visibility : (Phase.visibility noAnswers).Fresh := ⟨rfl, rfl, rfl⟩

theorem Phase.fresh_failed (msg : String) : (Phase.failed msg).Fresh := ⟨rfl, rfl, rfl⟩

namespace Cluster

/-- The incarnation `a` has returned from `wait_for_others_ready`. -/
def Completed (s : Cluster) (a : String) : Prop :=
  ∃ inc accepted, s.incarnations a = some inc ∧ inc.phase = .done accepted

/-- The incarnation `a` has returned from `wait_for_others_ready`, and `b` is what it accepted for the node `j`. -/
def Accepted (s : Cluster) (a : String) (j : Node) (b : String) : Prop :=
  ∃ inc accepted r, s.incarnations a = some inc ∧ inc.phase = .done accepted ∧ accepted j = some r ∧ r.uuid = b

/-- Every uuid of `uuids` was started, and those of the node `k` not after the incarnation number `m`. -/
def NoneAfter (s : Cluster) (uuids : Finset String) (k : Node) (m : Nat) : Prop :=
  ∀ u ∈ uuids, ∃ i, s.incarnations u = some i ∧ (i.node = k → i.born ≤ m)

/-- What an answer of the node `j` tells the incarnation `inc`. -/
def Answered (s : Cluster) (inc : Incarnation) (j : Node) (r : ReadyProbeResponse) : Prop :=
  j ≠ inc.node ∧ ∃ i, s.incarnations r.uuid = some i ∧ i.node = j ∧ r.verifiedPeers ⊆ i.verifiedPeers ∧
    s.NoneAfter inc.verifiedPeers j i.born ∧
    (r.isReady = true → i.isReady = true ∧ s.NoneAfter i.verifiedPeers inc.node inc.born)

/-- The newest incarnation of the node `j` that `inc` has verified has verified `a`. -/
def Visible (s : Cluster) (a : String) (inc : Incarnation) (j : Node) : Prop :=
  ∃ x ∈ inc.verifiedPeers, ∃ i, s.incarnations x = some i ∧ i.node = j ∧ a ∈ i.verifiedPeers ∧
    s.NoneAfter inc.verifiedPeers j i.born

/-- What holds of the incarnation `a`. -/
structure Sound (s : Cluster) (a : String) (inc : Incarnation) : Prop where
  known : ∀ u ∈ inc.verifiedPeers, ∃ i, s.incarnations u = some i
  responses : ∀ r ∈ inc.phase.responses, ∃ i, s.incarnations r.uuid = some i
  answers : ∀ j r, inc.phase.answers j = some r → s.Answered inc j r
  ready : inc.isReady = true → inc.phase.syncing = false
  visible : inc.phase.passed = true → ∀ j, j ≠ inc.node → s.Visible a inc j
  accepted : ∀ accepted, inc.phase = .done accepted →
    ∀ j, j ≠ inc.node → ∃ r, accepted j = some r ∧ r.isReady = true ∧ r.uuid ∈ inc.verifiedPeers

/-- What holds of the cluster. -/
structure Inv (s : Cluster) : Prop where
  current : ∀ n u, s.current n = some u → ∃ i, s.incarnations u = some i ∧ i.node = n ∧
    ∀ v k, s.incarnations v = some k → k.node = n → k.born ≤ i.born
  born_lt : ∀ u i, s.incarnations u = some i → i.born < s.started
  born_inj : ∀ u v i k, s.incarnations u = some i → s.incarnations v = some k → i.born = k.born → u = v
  sound : ∀ u i, s.incarnations u = some i → s.Sound u i

end Cluster

/-! ## What an incarnation keeps -/

/-- An incarnation goes on: what it verified stays verified, and once it is ready nothing is added. -/
structure Incarnation.Advances (i k : Incarnation) : Prop where
  node : k.node = i.node
  born : k.born = i.born
  verified : i.verifiedPeers ⊆ k.verifiedPeers
  ready : i.isReady = true → k.isReady = true ∧ k.verifiedPeers = i.verifiedPeers

theorem Incarnation.Advances.refl (i : Incarnation) : i.Advances i :=
  ⟨rfl, rfl, Finset.Subset.refl _, fun h => ⟨h, rfl⟩⟩

/-- A change of the phase alone. -/
theorem Incarnation.advances_phase (inc : Incarnation) (phase : Phase) : inc.Advances { inc with phase := phase } :=
  ⟨rfl, rfl, Finset.Subset.refl _, fun h => ⟨h, rfl⟩⟩

namespace Cluster

/-- No incarnation is lost. -/
def Grows (s t : Cluster) : Prop :=
  ∀ u i, s.incarnations u = some i → ∃ k, t.incarnations u = some k ∧ i.Advances k

variable {s t : Cluster} {inc : Incarnation}

theorem NoneAfter.grow {uuids : Finset String} {k : Node} {m : Nat} (h : s.NoneAfter uuids k m) (hst : s.Grows t) :
    t.NoneAfter uuids k m := by
  intro u hu
  obtain ⟨i, hi, hle⟩ := h u hu
  obtain ⟨i', hi', hadv⟩ := hst u i hi
  refine ⟨i', hi', ?_⟩
  intro hk
  rw [hadv.born]
  exact hle (hadv.node ▸ hk)

theorem Answered.grow {j : Node} {r : ReadyProbeResponse} (h : s.Answered inc j r) (hst : s.Grows t) :
    t.Answered inc j r := by
  obtain ⟨hne, i, hi, hnode, hsub, hnone, hready⟩ := h
  obtain ⟨i', hi', hadv⟩ := hst r.uuid i hi
  refine ⟨hne, i', hi', hadv.node.trans hnode, hsub.trans hadv.verified, ?_, ?_⟩
  · rw [hadv.born]
    exact hnone.grow hst
  · intro hr
    obtain ⟨hir, hback⟩ := hready hr
    obtain ⟨hir', heq⟩ := hadv.ready hir
    exact ⟨hir', heq ▸ hback.grow hst⟩

theorem Visible.grow {a : String} {j : Node} (h : s.Visible a inc j) (hst : s.Grows t) : t.Visible a inc j := by
  obtain ⟨x, hx, i, hi, hnode, ha, hnone⟩ := h
  obtain ⟨i', hi', hadv⟩ := hst x i hi
  exact ⟨x, hx, i', hi', hadv.node.trans hnode, hadv.verified ha, hadv.born.symm ▸ hnone.grow hst⟩

theorem Sound.grow {a : String} (h : s.Sound a inc) (hst : s.Grows t) : t.Sound a inc := by
  have hknown : ∀ u, (∃ i, s.incarnations u = some i) → ∃ i, t.incarnations u = some i := by
    rintro u ⟨i, hi⟩
    obtain ⟨i', hi', -⟩ := hst u i hi
    exact ⟨i', hi'⟩
  exact {
    known := fun u hu => hknown u (h.known u hu)
    responses := fun r hr => hknown r.uuid (h.responses r hr)
    answers := fun j r hr => (h.answers j r hr).grow hst
    ready := h.ready
    visible := fun hp j hj => (h.visible hp j hj).grow hst
    accepted := h.accepted }

/-- Every verified uuid is known, so none of them is newer than the incarnation that is alive. -/
theorem Inv.noneAfter_current (hinv : s.Inv) {n : Node} {u : String} {i : Incarnation} (hcur : s.current n = some u)
    (hi : s.incarnations u = some i) {uuids : Finset String} (hknown : ∀ v ∈ uuids, ∃ k, s.incarnations v = some k) :
    s.NoneAfter uuids n i.born := by
  intro v hv
  obtain ⟨k, hk⟩ := hknown v hv
  refine ⟨k, hk, ?_⟩
  intro hnode
  obtain ⟨i', hi', -, hnewest⟩ := hinv.current n u hcur
  rw [hi] at hi'
  cases hi'
  exact hnewest v k hk hnode

theorem Inv.node_current (hinv : s.Inv) {n : Node} {u : String} {i : Incarnation} (hcur : s.current n = some u)
    (hi : s.incarnations u = some i) : i.node = n := by
  obtain ⟨i', hi', hnode, -⟩ := hinv.current n u hcur
  rw [hi] at hi'
  cases hi'
  exact hnode

theorem alive_eq_some {n : Node} {u : String} {i : Incarnation} (h : s.alive n = some (u, i)) :
    s.current n = some u ∧ s.incarnations u = some i := by
  unfold alive at h
  obtain ⟨v, hv, hrest⟩ := Option.bind_eq_some_iff.mp h
  obtain ⟨k, hk, heq⟩ := Option.map_eq_some_iff.mp hrest
  cases heq
  exact ⟨hv, hk⟩

/-! ## An incarnation goes on -/

theorem grows_set {a : String} {inc' : Incarnation} (hinc : s.incarnations a = some inc) (hadv : inc.Advances inc') :
    s.Grows (s.set a inc') := by
  intro u i hi
  by_cases hu : u = a
  · subst hu
    rw [hinc] at hi
    cases hi
    exact ⟨inc', by simp [set], hadv⟩
  · exact ⟨i, by simp [set, Function.update_of_ne hu, hi], .refl i⟩

/-- The invariant when an incarnation goes on. -/
theorem Inv.set (hinv : s.Inv) {a : String} {inc' : Incarnation} (hinc : s.incarnations a = some inc)
    (hadv : inc.Advances inc') (hsound : s.Sound a inc') : (s.set a inc').Inv := by
  have hgrows := grows_set hinc hadv
  -- what is there afterwards was there before, with the same node and the same number
  have hback : ∀ u k, (s.set a inc').incarnations u = some k →
      ∃ i, s.incarnations u = some i ∧ k.node = i.node ∧ k.born = i.born ∧ s.Sound u k := by
    intro u k hk
    by_cases hu : u = a
    · subst hu
      have hk' : some inc' = some k := by simpa [Cluster.set] using hk
      cases hk'
      exact ⟨inc, hinc, hadv.node, hadv.born, hsound⟩
    · have hk' : s.incarnations u = some k := by simpa [Cluster.set, Function.update_of_ne hu] using hk
      exact ⟨k, hk', rfl, rfl, hinv.sound u k hk'⟩
  constructor
  · intro n u hcur
    obtain ⟨i, hi, hnode, hnewest⟩ := hinv.current n u hcur
    obtain ⟨i', hi', hadv'⟩ := hgrows u i hi
    refine ⟨i', hi', hadv'.node.trans hnode, ?_⟩
    intro v k hk hkn
    obtain ⟨k', hk', hn, hb, -⟩ := hback v k hk
    rw [hb, hadv'.born]
    exact hnewest v k' hk' (hn ▸ hkn)
  · intro u k hk
    obtain ⟨i, hi, -, hb, -⟩ := hback u k hk
    rw [hb]
    exact hinv.born_lt u i hi
  · intro u v k l hk hl heq
    obtain ⟨i, hi, -, hb, -⟩ := hback u k hk
    obtain ⟨i', hi', -, hb', -⟩ := hback v l hl
    exact hinv.born_inj u v i i' hi hi' (by rw [← hb, ← hb', heq])
  · intro u k hk
    obtain ⟨-, -, -, -, hs⟩ := hback u k hk
    exact hs.grow hgrows

/-! ## Starts and crashes -/

theorem sound_start {n : Node} {m : Nat} {u : String} : s.Sound u ⟨n, m, ∅, false, .unready noAnswers⟩ where
  known := by simp
  responses := by simp [Phase.responses]
  answers := by simp [Phase.answers, noAnswers]
  ready := by simp
  visible := by simp [Phase.passed]
  accepted := by simp

theorem grows_start {n : Node} {u : String} (h : s.start n u = some t) : s.Grows t := by
  unfold start at h
  split_ifs at h with hfree
  cases h
  intro v i hi
  by_cases hv : v = u
  · subst hv
    rw [hfree.2] at hi
    cases hi
  · exact ⟨i, by simp [Function.update_of_ne hv, hi], .refl i⟩

theorem Inv.start (hinv : s.Inv) {n : Node} {u : String} (h : s.start n u = some t) : t.Inv := by
  have hgrows := grows_start h
  unfold Cluster.start at h
  split_ifs at h with hfree
  cases h
  have hnew : ∀ v k, Function.update s.incarnations u (some ⟨n, s.started, ∅, false, .unready noAnswers⟩) v = some k →
      (v = u ∧ k = ⟨n, s.started, ∅, false, .unready noAnswers⟩) ∨ (v ≠ u ∧ s.incarnations v = some k) := by
    intro v k hk
    by_cases hv : v = u
    · subst hv
      rw [Function.update_self] at hk
      cases hk
      exact .inl ⟨rfl, rfl⟩
    · rw [Function.update_of_ne hv] at hk
      exact .inr ⟨hv, hk⟩
  constructor
  · intro k v (hcur : Function.update s.current n (some u) k = some v)
    by_cases hk : k = n
    · subst hk
      rw [Function.update_self] at hcur
      cases hcur
      refine ⟨_, Function.update_self _ _ _, rfl, ?_⟩
      intro w l hl _
      rcases hnew w l hl with ⟨-, rfl⟩ | ⟨-, hl⟩
      · exact Nat.le_refl _
      · exact Nat.le_of_lt (hinv.born_lt w l hl)
    · rw [Function.update_of_ne hk] at hcur
      obtain ⟨i, hi, hnode, hnewest⟩ := hinv.current k v hcur
      have hv : v ≠ u := by
        rintro rfl
        rw [hfree.2] at hi
        cases hi
      refine ⟨i, (Function.update_of_ne hv _ _).trans hi, hnode, ?_⟩
      intro w l hl hlk
      rcases hnew w l hl with ⟨-, rfl⟩ | ⟨-, hl⟩
      · exact absurd hlk (Ne.symm hk)
      · exact hnewest w l hl hlk
  · intro v k hk
    rcases hnew v k hk with ⟨-, rfl⟩ | ⟨-, hk⟩
    · exact Nat.lt_succ_self _
    · exact Nat.lt_succ_of_lt (hinv.born_lt v k hk)
  · intro v w k l hk hl heq
    rcases hnew v k hk with ⟨hv, rfl⟩ | ⟨-, hk⟩ <;> rcases hnew w l hl with ⟨hw, rfl⟩ | ⟨-, hl⟩
    · rw [hv, hw]
    · exact absurd heq.symm (Nat.ne_of_lt (hinv.born_lt w l hl))
    · exact absurd heq (Nat.ne_of_lt (hinv.born_lt v k hk))
    · exact hinv.born_inj v w k l hk hl heq
  · intro v k hk
    rcases hnew v k hk with ⟨-, rfl⟩ | ⟨-, hk⟩
    · exact sound_start
    · exact (hinv.sound v k hk).grow hgrows

theorem Inv.crash (hinv : s.Inv) (n : Node) : Cluster.Inv { s with current := Function.update s.current n none } := by
  have hgrows : s.Grows { s with current := Function.update s.current n none } := fun u i hi => ⟨i, hi, .refl i⟩
  constructor
  · intro k u (hcur : Function.update s.current n none k = some u)
    by_cases hk : k = n
    · subst hk
      rw [Function.update_self] at hcur
      cases hcur
    · rw [Function.update_of_ne hk] at hcur
      exact hinv.current k u hcur
  · exact hinv.born_lt
  · exact hinv.born_inj
  · exact fun u i hi => (hinv.sound u i hi).grow hgrows

/-! ## An answer arrives -/

theorem mem_record {answers answers' : Answers} {peer : Node} {response : ReadyProbeResponse}
    (h : answers.record peer response = some answers') {j : Node} {r : ReadyProbeResponse}
    (hr : answers' j = some r) : (j = peer ∧ r = response) ∨ answers j = some r := by
  unfold Answers.record at h
  split_ifs at h
  cases h
  by_cases hj : j = peer
  · subst hj
    rw [Function.update_self] at hr
    cases hr
    exact .inl ⟨rfl, rfl⟩
  · rw [Function.update_of_ne hj] at hr
    exact .inr hr

/-- What a recorded answer does to an incarnation. -/
theorem receive_cases {peer : Node} {response : ReadyProbeResponse} {inc' : Incarnation}
    (h : inc.receive peer response = some inc') :
    peer ≠ inc.node ∧ ∃ phase answers', inc.phase.answers.record peer response = some answers' ∧
      inc' = { inc with phase := phase } ∧ phase.answers = answers' ∧ phase.responses = [] ∧
      phase.syncing = inc.phase.syncing ∧ phase.passed = inc.phase.passed ∧ ∀ accepted, phase ≠ .done accepted := by
  unfold Incarnation.receive at h
  split_ifs at h with hpeer
  refine ⟨hpeer, ?_⟩
  split at h
  case h_1 answers hphase =>
    obtain ⟨answers', hrecord, rfl⟩ := Option.map_eq_some_iff.mp h
    rw [hphase]
    exact ⟨.unready answers', answers', hrecord, rfl, rfl, rfl, rfl, rfl, nofun⟩
  case h_2 answers hphase =>
    obtain ⟨answers', hrecord, rfl⟩ := Option.map_eq_some_iff.mp h
    rw [hphase]
    exact ⟨.visibility answers', answers', hrecord, rfl, rfl, rfl, rfl, rfl, nofun⟩
  case h_3 answers hphase =>
    obtain ⟨answers', hrecord, rfl⟩ := Option.map_eq_some_iff.mp h
    rw [hphase]
    exact ⟨.waiting answers', answers', hrecord, rfl, rfl, rfl, rfl, rfl, nofun⟩
  case h_4 => cases h

/-- The peer that answers is alive, so it is the newest of its node; and so is the incarnation that asks. -/
theorem Inv.answered (hinv : s.Inv) {n peer : Node} {a b : String} {peerInc : Incarnation}
    (hn : s.current n = some a) (ha : s.incarnations a = some inc) (hp : s.current peer = some b)
    (hb : s.incarnations b = some peerInc) (hne : peer ≠ inc.node) :
    s.Answered inc peer (peerInc.health b) := by
  refine ⟨hne, peerInc, hb, hinv.node_current hp hb, Finset.Subset.refl _,
    hinv.noneAfter_current hp hb (hinv.sound a inc ha).known, ?_⟩
  intro hready
  refine ⟨hready, ?_⟩
  rw [hinv.node_current hn ha]
  exact hinv.noneAfter_current hn ha (hinv.sound b peerInc hb).known

theorem Sound.receive {a : String} {peer : Node} {response : ReadyProbeResponse} {inc' : Incarnation}
    (hsound : s.Sound a inc) (h : inc.receive peer response = some inc')
    (hanswered : peer ≠ inc.node → s.Answered inc peer response) : s.Sound a inc' := by
  obtain ⟨hne, phase, answers', hrecord, rfl, hanswers, hresponses, hsyncing, hpassed, hdone⟩ := receive_cases h
  constructor
  · exact hsound.known
  · intro r hr
    rw [hresponses] at hr
    cases hr
  · intro j r hr
    rw [hanswers] at hr
    rcases mem_record hrecord hr with ⟨rfl, rfl⟩ | hr
    · exact hanswered hne
    · exact hsound.answers j r hr
  · exact fun hready => hsyncing.trans (hsound.ready hready)
  · exact fun hp => hsound.visible (hpassed ▸ hp)
  · exact fun accepted hacc => absurd hacc (hdone accepted)

/-! ## A round is over -/

theorem mem_otherNodes {n j : Node} : j ∈ otherNodes n ↔ j ≠ n := by
  simp [otherNodes]

theorem map_of_mapM {α β : Type} {f : α → Option β} {l : List α} {l' : List β} (h : l.mapM f = some l') :
    l.map f = l'.map some := by
  induction l generalizing l' with
  | nil =>
    cases h
    rfl
  | cons x l ih =>
    rw [List.mapM_cons] at h
    obtain ⟨y, hy, h⟩ := Option.bind_eq_some_iff.mp h
    obtain ⟨ys, hys, h⟩ := Option.bind_eq_some_iff.mp h
    cases h
    rw [List.map_cons, List.map_cons, hy, ih hys]

/-- The responses of a round are the answers of the other nodes. -/
theorem mem_responses {answers : Answers} {n : Node} {responses : List ReadyProbeResponse}
    (h : (otherNodes n).mapM answers = some responses) (r : ReadyProbeResponse) :
    r ∈ responses ↔ ∃ j, j ≠ n ∧ answers j = some r := by
  have hmem : some r ∈ (otherNodes n).map answers ↔ some r ∈ responses.map some := by rw [map_of_mapM h]
  rw [List.mem_map, List.mem_map] at hmem
  simpa [mem_otherNodes] using hmem.symm

theorem answered_of_mapM {answers : Answers} {n : Node} {responses : List ReadyProbeResponse}
    (h : (otherNodes n).mapM answers = some responses) {j : Node} (hj : j ≠ n) : ∃ r, answers j = some r := by
  have hmem : answers j ∈ (otherNodes n).map answers := List.mem_map_of_mem (mem_otherNodes.mpr hj)
  rw [map_of_mapM h] at hmem
  obtain ⟨r, -, hr⟩ := List.mem_map.mp hmem
  exact ⟨r, hr.symm⟩

/-- After `wait_for_others_unready` the second barrier begins. -/
theorem afterUnready_visibility {config : ServerCoordinationConfig}
    (henabled : config.startupVisibilityBarrierDisabled = false) :
    Incarnation.afterUnready config = .visibility noAnswers := by
  rw [Incarnation.afterUnready, henabled]
  rfl

/-- An incarnation goes on before the end of the barriers; it may have verified more. -/
theorem Sound.fresh {a : String} (hsound : s.Sound a inc) (hsyncing : inc.phase.syncing = true)
    {verifiedPeers : Finset String} (hknown : ∀ u ∈ verifiedPeers, ∃ i, s.incarnations u = some i)
    {phase : Phase} (hphase : phase.Fresh) :
    s.Sound a { inc with verifiedPeers := verifiedPeers, phase := phase } where
  known := hknown
  responses := by simp [hphase.responses]
  answers := by simp [hphase.answers, noAnswers]
  ready := by
    intro hready
    rw [hsound.ready hready] at hsyncing
    cases hsyncing
  visible := by simp [hphase.passed]
  accepted := by
    intro accepted hacc
    have hpassed := hphase.passed
    rw [show phase = .done accepted from hacc] at hpassed
    cases hpassed

/-- An incarnation that is not ready may add to what it verified. -/
theorem Sound.advances {a : String} (hsound : s.Sound a inc) (hsyncing : inc.phase.syncing = true)
    {verifiedPeers : Finset String} (hsub : inc.verifiedPeers ⊆ verifiedPeers) (phase : Phase) :
    inc.Advances { inc with verifiedPeers := verifiedPeers, phase := phase } where
  node := rfl
  born := rfl
  verified := hsub
  ready := by
    intro hready
    rw [hsound.ready hready] at hsyncing
    cases hsyncing

/-- The end of a round of `wait_for_others_unready`. -/
theorem checkUnready_nil {config : ServerCoordinationConfig}
    (henabled : config.startupVisibilityBarrierDisabled = false) (inc : Incarnation) (a : String) (expired : Bool)
    (unverifiedReadyPeers : List String) :
    ∃ phase : Phase, phase.Fresh ∧
      inc.checkUnready config a expired [] unverifiedReadyPeers = { inc with phase := phase } := by
  by_cases hempty : unverifiedReadyPeers.isEmpty = true
  · exact ⟨_, Phase.fresh_visibility, by simp only [Incarnation.checkUnready, hempty, if_true,
      afterUnready_visibility henabled]⟩
  · cases expired with
    | true => exact ⟨_, Phase.fresh_failed _, by rw [Incarnation.checkUnready, if_neg hempty, if_pos rfl]⟩
    | false => exact ⟨_, Phase.fresh_unready, by rw [Incarnation.checkUnready, if_neg hempty, if_neg nofun]⟩

theorem Sound.receiveAll {a : String} (hsound : s.Sound a inc) {responses : List ReadyProbeResponse}
    (hmapM : (otherNodes inc.node).mapM inc.phase.answers = some responses) :
    ∀ r ∈ responses, ∃ i, s.incarnations r.uuid = some i := by
  intro r hr
  obtain ⟨j, -, hj⟩ := (mem_responses hmapM r).mp hr
  obtain ⟨-, i, hi, -⟩ := hsound.answers j r hj
  exact ⟨i, hi⟩

theorem Sound.checkUnready {config : ServerCoordinationConfig}
    (henabled : config.startupVisibilityBarrierDisabled = false) {a : String} {expired : Bool}
    (hsound : s.Sound a inc) {responses : List ReadyProbeResponse} {unverifiedReadyPeers : List String}
    (hphase : inc.phase = .unreadyCheck responses unverifiedReadyPeers) :
    s.Sound a (inc.checkUnready config a expired responses unverifiedReadyPeers) ∧
      inc.Advances (inc.checkUnready config a expired responses unverifiedReadyPeers) := by
  have hsyncing : inc.phase.syncing = true := by rw [hphase]; rfl
  have hresponses := hsound.responses
  rw [hphase] at hresponses
  cases responses with
  | nil =>
    obtain ⟨phase, hfresh, heq⟩ := checkUnready_nil henabled inc a expired unverifiedReadyPeers
    rw [heq]
    exact ⟨hsound.fresh hsyncing hsound.known hfresh, inc.advances_phase phase⟩
  | cons probeResponse responses =>
    have hknown : ∀ u ∈ insert probeResponse.uuid inc.verifiedPeers, ∃ i, s.incarnations u = some i := by
      intro u hu
      rcases Finset.mem_insert.mp hu with rfl | hu
      · exact hresponses probeResponse List.mem_cons_self
      · exact hsound.known u hu
    refine ⟨⟨hknown, ?_, ?_, ?_, ?_, ?_⟩, hsound.advances hsyncing (Finset.subset_insert _ _) _⟩
    · exact fun r hr => hresponses r (List.mem_cons_of_mem _ hr)
    · exact nofun
    · intro hready
      rw [hsound.ready hready] at hsyncing
      cases hsyncing
    · exact nofun
    · exact nofun

theorem mem_foldl_insert {verified : Finset String} {responses : List ReadyProbeResponse} {u : String} :
    u ∈ responses.foldl (fun verified r => insert r.uuid verified) verified ↔
      u ∈ verified ∨ ∃ r ∈ responses, r.uuid = u := by
  induction responses generalizing verified with
  | nil => simp
  | cons r responses ih =>
    rw [List.foldl_cons, ih, Finset.mem_insert]
    simp only [List.mem_cons, exists_eq_or_imp]
    tauto

/-- Nothing is missing in a response: its incarnation has verified every other current uuid. -/
theorem mem_verifiedPeers_of_missing {expectedUuids verifiedPeers : Finset String} {peerUuid a : String}
    (h : (missingStartupVisibility expectedUuids peerUuid verifiedPeers).isEmpty = true) (ha : a ∈ expectedUuids)
    (hne : a ≠ peerUuid) : a ∈ verifiedPeers := by
  have hnil := List.isEmpty_iff.mp h
  by_contra hnot
  have hmem : a ∈ missingStartupVisibility expectedUuids peerUuid verifiedPeers := by
    simp [missingStartupVisibility, ha, hne, hnot]
  rw [hnil] at hmem
  cases hmem

/-- A round in which nothing is missing shows that the newest incarnation of every peer has verified this one. -/
theorem Sound.visible_of_complete {a : String} (hsound : s.Sound a inc) (ha : s.incarnations a = some inc)
    {responses : List ReadyProbeResponse}
    (hmapM : (otherNodes inc.node).mapM inc.phase.answers = some responses)
    (hcomplete : ∀ r ∈ responses, (missingStartupVisibility (currentStartupUuidSet a responses) r.uuid
      r.verifiedPeers).isEmpty = true)
    {inc' : Incarnation}
    (hverified : inc'.verifiedPeers = responses.foldl (fun verified r => insert r.uuid verified) inc.verifiedPeers)
    {j : Node} (hj : j ≠ inc.node) (hanswer : ∃ r, inc.phase.answers j = some r) : s.Visible a inc' j := by
  obtain ⟨r, hr⟩ := hanswer
  have hmem : r ∈ responses := (mem_responses hmapM r).mpr ⟨j, hj, hr⟩
  obtain ⟨-, i, hi, hnode, hsub, hnone, -⟩ := hsound.answers j r hr
  have hne : a ≠ r.uuid := by
    intro heq
    rw [← heq, ha] at hi
    cases hi
    exact hj hnode.symm
  refine ⟨r.uuid, ?_, i, hi, hnode, hsub ?_, ?_⟩
  · rw [hverified]
    exact mem_foldl_insert.mpr (.inr ⟨r, hmem, rfl⟩)
  · exact mem_verifiedPeers_of_missing (hcomplete r hmem) (Finset.mem_insert_self _ _) hne
  · intro u hu
    rw [hverified] at hu
    rcases mem_foldl_insert.mp hu with hu | ⟨r', hr', rfl⟩
    · exact hnone u hu
    · obtain ⟨j', -, hanswer'⟩ := (mem_responses hmapM r').mp hr'
      obtain ⟨-, i', hi', hnode', -⟩ := hsound.answers j' r' hanswer'
      refine ⟨i', hi', ?_⟩
      intro hnode''
      rw [hnode'] at hnode''
      rw [hnode'', hr] at hanswer'
      cases hanswer'
      rw [hi] at hi'
      cases hi'
      exact Nat.le_refl _

theorem Sound.checkVisibility {a : String} {expired : Bool} (hsound : s.Sound a inc)
    (ha : s.incarnations a = some inc) {answers : Answers} {responses : List ReadyProbeResponse}
    (hphase : inc.phase = .visibility answers) (hmapM : (otherNodes inc.node).mapM answers = some responses) :
    s.Sound a (inc.checkVisibility a expired responses) ∧ inc.Advances (inc.checkVisibility a expired responses) := by
  have hsyncing : inc.phase.syncing = true := by rw [hphase]; rfl
  have hmapM' : (otherNodes inc.node).mapM inc.phase.answers = some responses := by rw [hphase]; exact hmapM
  have hsub : inc.verifiedPeers ⊆ (inc.checkVisibility a expired responses).verifiedPeers :=
    fun u hu => mem_foldl_insert.mpr (.inl hu)
  have hknown : ∀ u ∈ (inc.checkVisibility a expired responses).verifiedPeers,
      ∃ i, s.incarnations u = some i := by
    intro u hu
    rcases mem_foldl_insert.mp hu with hu | ⟨r, hr, rfl⟩
    · exact hsound.known u hu
    · exact hsound.receiveAll hmapM' r hr
  refine ⟨?_, hsound.advances hsyncing hsub _⟩
  by_cases hincomplete : (responses.filter fun r =>
      ¬ (missingStartupVisibility (currentStartupUuidSet a responses) r.uuid r.verifiedPeers).isEmpty).isEmpty = true
  · have heq : (inc.checkVisibility a expired responses).phase = .synced := if_pos hincomplete
    have hcomplete : ∀ r ∈ responses,
        (missingStartupVisibility (currentStartupUuidSet a responses) r.uuid r.verifiedPeers).isEmpty = true := by
      intro r hr
      have hnone := List.filter_eq_nil_iff.mp (List.isEmpty_iff.mp hincomplete) r hr
      simpa using hnone
    refine ⟨hknown, ?_, ?_, ?_, ?_, ?_⟩
    · intro r hr
      rw [heq] at hr
      cases hr
    · intro j r hr
      rw [heq] at hr
      cases hr
    · intro _
      rw [heq]
      rfl
    · intro _ j hj
      have hanswer : ∃ r, inc.phase.answers j = some r := by
        rw [hphase]
        exact answered_of_mapM hmapM hj
      exact hsound.visible_of_complete ha hmapM' hcomplete rfl hj hanswer
    · intro accepted hacc
      rw [heq] at hacc
      cases hacc
  · have hfresh : (inc.checkVisibility a expired responses).phase.Fresh := by
      show Phase.Fresh (if _ then _ else _)
      rw [if_neg hincomplete]
      cases expired with
      | true => exact Phase.fresh_failed _
      | false => exact Phase.fresh_visibility
    exact hsound.fresh hsyncing hknown hfresh

/-- An incarnation that has passed the barriers goes on to poll for readiness. -/
theorem Sound.waiting {a : String} (hsound : s.Sound a inc) (hpassed : inc.phase.passed = true) (isReady : Bool) :
    s.Sound a { inc with isReady := isReady, phase := .waiting noAnswers } where
  known := hsound.known
  responses := nofun
  answers := nofun
  ready := fun _ => rfl
  visible := fun _ j hj => hsound.visible hpassed j hj
  accepted := nofun

/-- Nothing is known of an incarnation that failed but what it verified. -/
theorem Sound.failed {a : String} (hsound : s.Sound a inc) (msg : String) :
    s.Sound a { inc with phase := .failed msg } where
  known := hsound.known
  responses := nofun
  answers := nofun
  ready := fun _ => rfl
  visible := nofun
  accepted := nofun

theorem Sound.checkReady {a : String} (hsound : s.Sound a inc) {answers : Answers}
    {responses : List ReadyProbeResponse} (hphase : inc.phase = .waiting answers)
    (hmapM : (otherNodes inc.node).mapM answers = some responses) :
    s.Sound a (inc.checkReady answers responses) ∧ inc.Advances (inc.checkReady answers responses) := by
  have hpassed : inc.phase.passed = true := by rw [hphase]; rfl
  unfold Incarnation.checkReady
  split
  case h_1 => exact ⟨hsound.failed _, inc.advances_phase _⟩
  case h_2 hfind =>
    by_cases hall : responses.all ReadyProbeResponse.isReady = true
    · rw [if_pos hall]
      refine ⟨⟨hsound.known, nofun, ?_, fun _ => rfl, fun _ => hsound.visible hpassed, ?_⟩,
        inc.advances_phase _⟩
      · have hanswers := hsound.answers
        rw [hphase] at hanswers
        exact hanswers
      · intro accepted hacc j hj
        cases hacc
        obtain ⟨r, hr⟩ := answered_of_mapM hmapM hj
        have hmem := (mem_responses hmapM r).mpr ⟨j, hj, hr⟩
        have hverified := List.find?_eq_none.mp hfind r hmem
        exact ⟨r, hr, List.all_eq_true.mp hall r hmem, by simpa using hverified⟩
    · rw [if_neg hall]
      exact ⟨hsound.waiting hpassed inc.isReady, inc.advances_phase _⟩

theorem Sound.proceed {config : ServerCoordinationConfig}
    (henabled : config.startupVisibilityBarrierDisabled = false) {a : String} {expired : Bool} {inc' : Incarnation}
    (hsound : s.Sound a inc) (ha : s.incarnations a = some inc) (h : inc.proceed config a expired = some inc') :
    s.Sound a inc' ∧ inc.Advances inc' := by
  unfold Incarnation.proceed at h
  split at h
  case h_1 answers hphase =>
    have hsyncing : inc.phase.syncing = true := by rw [hphase]; rfl
    obtain ⟨responses, hmapM, h⟩ := Option.bind_eq_some_iff.mp h
    cases h
    refine ⟨⟨hsound.known, ?_, nofun, ?_, nofun, nofun⟩, inc.advances_phase _⟩
    · exact hsound.receiveAll (by rw [hphase]; exact hmapM)
    · intro hready
      rw [hsound.ready hready] at hsyncing
      cases hsyncing
  case h_2 responses unverifiedReadyPeers hphase =>
    cases h
    exact hsound.checkUnready henabled hphase
  case h_3 answers hphase =>
    obtain ⟨responses, hmapM, h⟩ := Option.bind_eq_some_iff.mp h
    cases h
    exact hsound.checkVisibility ha hphase hmapM
  case h_4 hphase =>
    cases h
    refine ⟨hsound.waiting (by rw [hphase]; rfl) true, rfl, rfl, Finset.Subset.refl _, ?_⟩
    exact fun _ => ⟨rfl, rfl⟩
  case h_5 answers hphase =>
    obtain ⟨responses, hmapM, h⟩ := Option.bind_eq_some_iff.mp h
    cases h
    exact hsound.checkReady hphase hmapM
  case h_6 => cases h
  case h_7 => cases h

theorem Sound.giveUp {a : String} {expired : Bool} {inc' : Incarnation} (hsound : s.Sound a inc)
    (h : inc.giveUp expired = some inc') : s.Sound a inc' ∧ inc.Advances inc' := by
  unfold Incarnation.giveUp at h
  split at h
  case h_1 answers hphase =>
    cases h
    exact ⟨hsound.failed _, inc.advances_phase _⟩
  case h_2 answers hphase =>
    cases h
    refine ⟨?_, inc.advances_phase _⟩
    cases expired with
    | true => exact hsound.failed _
    | false => exact hsound.fresh (by rw [hphase]; rfl) hsound.known Phase.fresh_visibility
  case h_3 answers hphase =>
    cases h
    exact ⟨hsound.waiting (by rw [hphase]; rfl) inc.isReady, inc.advances_phase _⟩
  case h_4 => cases h

/-! ## The cluster -/

theorem init_inv : init.Inv where
  current := nofun
  born_lt := nofun
  born_inj := nofun
  sound := nofun

/-- Every step keeps the invariant. -/
theorem step_inv {config : ServerCoordinationConfig} (henabled : config.startupVisibilityBarrierDisabled = false)
    (s : Cluster) (action : Node × ClusterAction) (t : Cluster) (h : s.step config action = some t) (hinv : s.Inv) :
    t.Inv := by
  obtain ⟨n, action⟩ := action
  cases action with
  | start uuid => exact hinv.start h
  | crash =>
    rw [step] at h
    split_ifs at h
    cases h
    exact hinv.crash n
  | answer peer =>
    obtain ⟨⟨a, inc⟩, halive, h⟩ := Option.bind_eq_some_iff.mp h
    obtain ⟨⟨b, peerInc⟩, hpeer, h⟩ := Option.bind_eq_some_iff.mp h
    obtain ⟨inc', hreceive, h⟩ := Option.bind_eq_some_iff.mp h
    cases h
    obtain ⟨hn, ha⟩ := alive_eq_some halive
    obtain ⟨hp, hb⟩ := alive_eq_some hpeer
    have hadv : inc.Advances inc' := by
      obtain ⟨-, phase, -, -, rfl, -⟩ := receive_cases hreceive
      exact inc.advances_phase phase
    exact hinv.set ha hadv ((hinv.sound a inc ha).receive hreceive (hinv.answered hn ha hp hb))
  | proceed expired =>
    obtain ⟨⟨a, inc⟩, halive, h⟩ := Option.bind_eq_some_iff.mp h
    obtain ⟨inc', hproceed, h⟩ := Option.bind_eq_some_iff.mp h
    cases h
    obtain ⟨-, ha⟩ := alive_eq_some halive
    obtain ⟨hsound, hadv⟩ := (hinv.sound a inc ha).proceed henabled ha hproceed
    exact hinv.set ha hadv hsound
  | giveUp expired =>
    obtain ⟨⟨a, inc⟩, halive, h⟩ := Option.bind_eq_some_iff.mp h
    obtain ⟨inc', hgiveUp, h⟩ := Option.bind_eq_some_iff.mp h
    cases h
    obtain ⟨-, ha⟩ := alive_eq_some halive
    obtain ⟨hsound, hadv⟩ := (hinv.sound a inc ha).giveUp hgiveUp
    exact hinv.set ha hadv hsound

/-- The incarnation that is accepted for a node is the newest verified one of this node, and it has verified the
incarnation that accepts it. -/
theorem Inv.accepted_newest (hinv : s.Inv) {a b : String} {j : Node} (hacc : s.Accepted a j b) :
    ∃ ia ib, s.incarnations a = some ia ∧ s.incarnations b = some ib ∧ ib.node = j ∧ j ≠ ia.node ∧
      a ∈ ib.verifiedPeers ∧ b ∈ ia.verifiedPeers ∧ s.NoneAfter ia.verifiedPeers j ib.born ∧
      s.NoneAfter ib.verifiedPeers ia.node ia.born := by
  obtain ⟨ia, accepted, r, ha, hphase, hr, rfl⟩ := hacc
  have hsound := hinv.sound a ia ha
  obtain ⟨hj, ib, hb, hnode, -, hnone, hready⟩ := hsound.answers j r (by rw [hphase]; exact hr)
  obtain ⟨r', hr', hisReady, hverified⟩ := hsound.accepted accepted hphase j hj
  rw [hr] at hr'
  cases hr'
  -- the accepted incarnation and the one seen at the barrier bound each other
  obtain ⟨x, hx, ix, hix, hxnode, hax, hxnone⟩ := hsound.visible (by rw [hphase]; rfl) j hj
  have hle : ib.born ≤ ix.born := by
    obtain ⟨i, hi, hborn⟩ := hxnone r.uuid hverified
    rw [hb] at hi
    cases hi
    exact hborn hnode
  have hge : ix.born ≤ ib.born := by
    obtain ⟨i, hi, hborn⟩ := hnone x hx
    rw [hix] at hi
    cases hi
    exact hborn hxnode
  have heq : x = r.uuid := hinv.born_inj x r.uuid ix ib hix hb (Nat.le_antisymm hge hle)
  subst heq
  rw [hb] at hix
  cases hix
  exact ⟨ia, ib, ha, hb, hnode, hj, hax, hverified, hnone, (hready hisReady).2⟩

/-- An incarnation that has completed has accepted one for every other node. -/
theorem Inv.exists_accepted (hinv : s.Inv) {a : String} {ia : Incarnation} (ha : s.incarnations a = some ia)
    (hcompleted : s.Completed a) {j : Node} (hj : j ≠ ia.node) : ∃ b, s.Accepted a j b := by
  obtain ⟨inc, accepted, hinc, hphase⟩ := hcompleted
  rw [ha] at hinc
  cases hinc
  obtain ⟨r, hr, -, -⟩ := (hinv.sound a ia ha).accepted accepted hphase j hj
  exact ⟨r.uuid, ia, accepted, r, ha, hphase, hr, rfl⟩

/-- **Startup generations agree.** In any run of three nodes with the visibility barrier, an incarnation `a` that has
accepted an incarnation `b` of another node has verified `b` and was verified by it; and when `b` has completed too,
what it accepted for the node of `a` is `a` and nothing else. -/
theorem generations_agree (config : ServerCoordinationConfig)
    (henabled : config.startupVisibilityBarrierDisabled = false) (actions : List (Node × ClusterAction)) (s : Cluster)
    (hrun : Transition.run (step config) init actions = some s) (a b : String) (j : Node)
    (haccepted : s.Accepted a j b) :
    ∃ ia ib, s.incarnations a = some ia ∧ s.incarnations b = some ib ∧ ib.node = j ∧ j ≠ ia.node ∧
      a ∈ ib.verifiedPeers ∧ b ∈ ia.verifiedPeers ∧
      (s.Completed b → s.Accepted b ia.node a ∧ ∀ a', s.Accepted b ia.node a' → a' = a) := by
  have hinv : s.Inv := Transition.run_invariant (step_inv henabled) hrun init_inv
  obtain ⟨ia, ib, ha, hb, hnode, hj, hab, hba, -, hnone⟩ := hinv.accepted_newest haccepted
  refine ⟨ia, ib, ha, hb, hnode, hj, hab, hba, ?_⟩
  intro hcompleted
  have honly : ∀ a', s.Accepted b ia.node a' → a' = a := by
    intro a' ha'
    obtain ⟨ib', ia', hb', hia', hnode', -, -, ha'b, hnone', -⟩ := hinv.accepted_newest ha'
    rw [hb] at hb'
    cases hb'
    obtain ⟨i, hi, hborn⟩ := hnone a' ha'b
    rw [hia'] at hi
    cases hi
    obtain ⟨i, hi, hborn'⟩ := hnone' a hab
    rw [ha] at hi
    cases hi
    exact hinv.born_inj a' a ia' ia hia' ha (Nat.le_antisymm (hborn hnode') (hborn' rfl))
  obtain ⟨a', ha'⟩ := hinv.exists_accepted hb hcompleted (show ia.node ≠ ib.node from hnode ▸ hj.symm)
  refine ⟨?_, honly⟩
  rw [← honly a' ha']
  exact ha'

/-- The uuid that the incarnation `a` has accepted for the node `j`. -/
def acceptedOf (s : Cluster) (a : String) (j : Node) : Option String := do
  let inc ← s.incarnations a
  match inc.phase with
  | .done accepted => (accepted j).map ReadyProbeResponse.uuid
  | _ => none

theorem accepted_of_acceptedOf {a b : String} {j : Node} (h : s.acceptedOf a j = some b) : s.Accepted a j b := by
  obtain ⟨inc, ha, h⟩ := Option.bind_eq_some_iff.mp h
  split at h
  case h_1 accepted hphase =>
    obtain ⟨r, hr, hb⟩ := Option.map_eq_some_iff.mp h
    exact ⟨inc, accepted, r, ha, hphase, hr, hb⟩
  case h_2 => cases h

/-- A poll of both peers that is answered at once. -/
def round (n : Node) : List (Node × ClusterAction) :=
  [(n, .answer (n + 1)), (n, .answer (n + 2)), (n, .proceed false)]

/-- Three nodes start; the nodes 0 and 1 complete. -/
def startupRun : List (Node × ClusterAction) :=
  [(0, .start "a"), (1, .start "b"), (2, .start "c")] ++
    [0, 1, 2].flatMap (fun n => round n ++ List.replicate 3 (n, .proceed false)) ++
    [0, 1, 2].flatMap (fun n => round n ++ [(n, .proceed false)]) ++ [0, 1].flatMap round

theorem generations_agree_three :
    ∃ s, Transition.run (step ⟨0, [], [], 0, 1, false⟩) init startupRun = some s ∧ s.Accepted "a" 1 "b" ∧
      s.Completed "b" ∧ ∃ ia ib, s.incarnations "a" = some ia ∧ s.incarnations "b" = some ib ∧ ib.node = 1 ∧
        1 ≠ ia.node ∧ "a" ∈ ib.verifiedPeers ∧ "b" ∈ ia.verifiedPeers ∧
        (s.Completed "b" → s.Accepted "b" ia.node "a" ∧ ∀ a', s.Accepted "b" ia.node a' → a' = "a") := by
  have hrun : ((Transition.run (step ⟨0, [], [], 0, 1, false⟩) init startupRun).map fun s =>
      (s.acceptedOf "a" 1, s.acceptedOf "b" 0)) = some (some "b", some "a") := by decide +kernel
  obtain ⟨s, hs, haccepted⟩ := Option.map_eq_some_iff.mp hrun
  obtain ⟨ha, hb⟩ := Prod.mk.inj haccepted
  obtain ⟨inc, accepted, -, hinc, hphase, -⟩ := accepted_of_acceptedOf hb
  exact ⟨s, hs, accepted_of_acceptedOf ha, ⟨inc, accepted, hinc, hphase⟩,
    generations_agree _ rfl startupRun s hs "a" "b" 1 (accepted_of_acceptedOf ha)⟩

end Cluster

end AmpcCommon.Startup
