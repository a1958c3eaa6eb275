import AmpcCommon.Startup.Gallery

/-!
# The gallery check, proofs

An answer can be out of date: its peer has crashed, and has published another state since. But then this incarnation of
the peer polls later, and is answered with what the node still publishes. So of two nodes that have heard each other one
has heard the state that the other one publishes (`GalleryInv.fresh`), and two nodes that accept publish the same.
-/

namespace AmpcCommon.Startup

/-- A node in this phase has heard the state of a peer, or has accepted it. -/
def GalleryPhase.Heard (encode : GalleryState → Bytes) (decode : Bytes → Except String GalleryState)
    (phase : GalleryPhase) (peer : Node) (state : GalleryState) : Prop :=
  match phase with
  | .polling _ answers => answers peer = some (StatusCode.ok, encode state) ∧ decode (encode state) = .ok state
  | .loading loc => state = loc
  | .loaded loc => state = loc
  | _ => False

/-- The state that a node publishes in this phase. -/
def GalleryPhase.Publishes (phase : GalleryPhase) (published : Option GalleryState) : Prop :=
  match phase with
  | .polling loc _ => published = some loc
  | .loading loc => published = some loc
  | .loaded loc => published = some loc
  | _ => True

/-- Why a node `n` has failed, by what has been published. -/
inductive GalleryFailure (history : List (Node × GalleryState)) (n : Node) (msg : String) : Prop where
  | pollsExpired (h : msg = "Startup sync timed out")
  | checkExpired (h : msg = s!"Timed out gathering post-recovery gallery state for party {n.val}")
  /-- A peer had another state, and the peers before it the same one. -/
  | mismatch (peer : Node) (loc other : GalleryState) (hpeer : peer ≠ n) (hloc : (n, loc) ∈ history)
      (hother : (peer, other) ∈ history) (hne : loc ≠ other)
      (hfirst : ∀ q, q ≠ n → q < peer → (q, loc) ∈ history) (h : msg = galleryMismatch peer.val loc other)
  | changed (loc after : GalleryState) (hloc : (n, loc) ∈ history) (hne : loc ≠ after)
      (h : msg = s!"Gallery changed during startup loading: before={loc.debug}, after={after.debug}")

theorem GalleryFailure.mono {history history' : List (Node × GalleryState)} {n : Node} {msg : String}
    (h : GalleryFailure history n msg) (hsub : ∀ e ∈ history, e ∈ history') : GalleryFailure history' n msg := by
  cases h with
  | pollsExpired h => exact .pollsExpired h
  | checkExpired h => exact .checkExpired h
  | mismatch peer loc other hpeer hloc hother hne hfirst h =>
    exact .mismatch peer loc other hpeer (hsub _ hloc) (hsub _ hother) hne (fun q hq hlt => hsub _ (hfirst q hq hlt)) h
  | changed loc after hloc hne h => exact .changed loc after (hsub _ hloc) hne h

/-! ## Answers -/

section Answers

variable {encode : GalleryState → Bytes} {decode : Bytes → Except String GalleryState}

theorem eq_of_encode_eq {a b : GalleryState} (ha : decode (encode a) = .ok a) (hb : decode (encode b) = .ok b)
    (hab : encode a = encode b) : a = b := by
  have hok : (Except.ok a : Except String GalleryState) = .ok b := by rw [← ha, ← hb, hab]
  exact Except.ok.inj hok

theorem mapM_answers {answers : Node → Option GalleryAnswer} {l : List Node} {responses : List GalleryAnswer}
    (h : l.mapM answers = some responses) : l.map answers = responses.map some := by
  induction l generalizing responses with
  | nil =>
    cases h
    rfl
  | cons p l ih =>
    rw [List.mapM_cons] at h
    obtain ⟨first, hfirst, h⟩ := Option.bind_eq_some_iff.mp h
    obtain ⟨rest, hrest, h⟩ := Option.bind_eq_some_iff.mp h
    cases h
    rw [List.map_cons, List.map_cons, ih hrest, hfirst]

/-- The check of answers of the route accepts them all, or finds the first one that differs. -/
theorem checkAnswers_cases {history : List (Node × GalleryState)}
    (hserde : ∀ e ∈ history, decode (encode e.2) = .ok e.2) (loc : GalleryState)
    {answers : Node → Option GalleryAnswer} {l : List Node}
    {responses : List GalleryAnswer} (hmap : l.map answers = responses.map some)
    (hanswers : ∀ p ∈ l, ∀ a, answers p = some a → a = (StatusCode.serviceUnavailable, []) ∨
      ∃ state, a = (StatusCode.ok, encode state) ∧ (p, state) ∈ history)
    (havailable : ∀ a ∈ responses, a.1 ≠ StatusCode.serviceUnavailable) :
    (checkAnswers decode loc ((l.map Fin.val).zip responses) = .ok () ∧
      ∀ p ∈ l, answers p = some (StatusCode.ok, encode loc)) ∨
    ∃ l₁ p l₂ other, l = l₁ ++ p :: l₂ ∧ (∀ q ∈ l₁, (q, loc) ∈ history) ∧ (p, other) ∈ history ∧ loc ≠ other ∧
      checkAnswers decode loc ((l.map Fin.val).zip responses) = .bail (galleryMismatch p.val loc other) := by
  induction l generalizing responses with
  | nil => exact Or.inl ⟨rfl, fun p hp => absurd hp List.not_mem_nil⟩
  | cons p l ih =>
    cases responses with
    | nil => cases hmap
    | cons a responses =>
      rw [List.map_cons, List.map_cons, List.cons.injEq] at hmap
      obtain ⟨hfirst, hrest⟩ := hmap
      rcases hanswers p List.mem_cons_self a hfirst with rfl | ⟨state, rfl, hstate⟩
      · exact absurd rfl (havailable _ List.mem_cons_self)
      · rw [List.map_cons, List.zip_cons_cons, checkAnswers, if_neg (by decide), hserde _ hstate]
        dsimp only
        unfold ensureGalleryConsistency
        by_cases hsame : loc = state
        · subst hsame
          rw [if_pos rfl, ensureGalleryConsistency, Outcome.ok_bind]
          rcases ih hrest (fun q hq => hanswers q (List.mem_cons_of_mem _ hq))
            (fun a ha => havailable a (List.mem_cons_of_mem _ ha)) with
            ⟨hok, hall⟩ | ⟨l₁, q, l₂, other, rfl, hbefore, hother, hne, hbail⟩
          · exact Or.inl ⟨hok, List.forall_mem_cons.mpr ⟨hfirst, hall⟩⟩
          · refine Or.inr ⟨p :: l₁, q, l₂, other, rfl, ?_, hother, hne, hbail⟩
            exact List.forall_mem_cons.mpr ⟨hstate, hbefore⟩
        · rw [if_neg hsame]
          exact Or.inr ⟨[], p, l, state, rfl, fun q hq => absurd hq List.not_mem_nil, hstate, hsame, rfl⟩

end Answers

/-! ## Runs -/

/-- The invariant of the nodes. -/
structure GalleryInv (encode : GalleryState → Bytes) (decode : Bytes → Except String GalleryState)
    (s : GalleryCluster) : Prop where
  /-- What is published is decoded as it was. -/
  decodes : ∀ e ∈ s.history, decode (encode e.2) = .ok e.2
  publishes : ∀ n node, s.nodes n = some node → node.phase.Publishes node.published
  history : ∀ n node state, s.nodes n = some node → node.published = some state → (n, state) ∈ s.history
  answers : ∀ n node loc answers, s.nodes n = some node → node.phase = .polling loc answers → ∀ p a,
    answers p = some a → a = (.serviceUnavailable, []) ∨ ∃ state, a = (.ok, encode state) ∧ (p, state) ∈ s.history
  /-- Of two nodes that have heard each other one has heard what the other one publishes. -/
  fresh : ∀ n p node peer state state', n ≠ p → s.nodes n = some node → s.nodes p = some peer →
    node.phase.Heard encode decode p state → peer.phase.Heard encode decode n state' →
      peer.published = some state ∨ node.published = some state'
  failed : ∀ n node msg, s.nodes n = some node → node.phase = .failed msg → GalleryFailure s.history n msg

section Runs

variable {encode : GalleryState → Bytes} {decode : Bytes → Except String GalleryState} {s t : GalleryCluster}

/-- What another node is after a node has gone on. -/
theorem set_nodes_cases {n m : Node} {node node' : GalleryNode} (h : (s.set n node).nodes m = some node') :
    (m = n ∧ node' = node) ∨ (m ≠ n ∧ s.nodes m = some node') := by
  by_cases hm : m = n
  · subst hm
    refine Or.inl ⟨rfl, ?_⟩
    have hself : (s.set m node).nodes m = some node := Function.update_self _ _ _
    rw [hself] at h
    exact (Option.some.inj h).symm
  · refine Or.inr ⟨hm, ?_⟩
    rwa [show (s.set n node).nodes m = s.nodes m from Function.update_of_ne hm _ _] at h

/-- A step that leaves what the node publishes, and lets it hear nothing new. -/
theorem GalleryInv.set (h : GalleryInv encode decode s) {n : Node} {node node' : GalleryNode}
    (hnode : s.nodes n = some node) (hpublished : node'.published = node.published)
    (hpublishes : node'.phase.Publishes node'.published)
    (hheard : ∀ p state, p ≠ n → node'.phase.Heard encode decode p state → node.phase.Heard encode decode p state)
    (hpolling : ∀ loc answers, node'.phase = .polling loc answers → ∀ p, answers p = none)
    (hfailed : ∀ msg, node'.phase = .failed msg → GalleryFailure s.history n msg) :
    GalleryInv encode decode (s.set n node') := by
  refine ⟨h.decodes, fun m x hx => ?_, fun m x state hx hstate => ?_, fun m x loc answers hx hphase p a ha => ?_,
    fun m p x y state state' hne hx hy hheardx hheardy => ?_, fun m x msg hx hphase => ?_⟩
  · rcases set_nodes_cases hx with ⟨rfl, rfl⟩ | ⟨-, hxs⟩
    · exact hpublishes
    · exact h.publishes m x hxs
  · rcases set_nodes_cases hx with ⟨rfl, rfl⟩ | ⟨-, hxs⟩
    · exact h.history m node state hnode (hpublished ▸ hstate)
    · exact h.history m x state hxs hstate
  · rcases set_nodes_cases hx with ⟨rfl, rfl⟩ | ⟨-, hxs⟩
    · rw [hpolling loc answers hphase p] at ha
      cases ha
    · exact h.answers m x loc answers hxs hphase p a ha
  · rcases set_nodes_cases hx with ⟨rfl, rfl⟩ | ⟨-, hxs⟩
    · rcases set_nodes_cases hy with ⟨rfl, rfl⟩ | ⟨-, hys⟩
      · exact absurd rfl hne
      · rw [hpublished]
        exact h.fresh m p node y state state' hne hnode hys (hheard p state hne.symm hheardx) hheardy
    · rcases set_nodes_cases hy with ⟨rfl, rfl⟩ | ⟨-, hys⟩
      · rw [hpublished]
        exact h.fresh m p x node state state' hne hxs hnode hheardx (hheard m state' hne hheardy)
      · exact h.fresh m p x y state state' hne hxs hys hheardx hheardy
  · rcases set_nodes_cases hx with ⟨rfl, rfl⟩ | ⟨-, hxs⟩
    · exact hfailed msg hphase
    · exact h.failed m x msg hxs hphase

/-- A node crashes. -/
theorem GalleryInv.crash (h : GalleryInv encode decode s) (n : Node) :
    GalleryInv encode decode { s with nodes := Function.update s.nodes n none } := by
  have hnodes : ∀ {m x}, Function.update s.nodes n none m = some x → s.nodes m = some x := by
    intro m x hx
    by_cases hm : m = n
    · subst hm
      rw [Function.update_self] at hx
      cases hx
    · rwa [Function.update_of_ne hm] at hx
  refine ⟨h.decodes, fun m x hx => h.publishes m x (hnodes hx), fun m x state hx => h.history m x state (hnodes hx),
    fun m x loc answers hx => h.answers m x loc answers (hnodes hx), fun m p x y state state' hne hx hy => ?_,
    fun m x msg hx => h.failed m x msg (hnodes hx)⟩
  exact h.fresh m p x y state state' hne (hnodes hx) (hnodes hy)

/-- A node that is new, or publishes its state for the first time, has heard nothing yet. -/
theorem GalleryInv.begin (h : GalleryInv encode decode s) {n : Node} {node : GalleryNode}
    {more : List (Node × GalleryState)} (hpublishes : node.phase.Publishes node.published)
    (hdecodes : ∀ e ∈ more, decode (encode e.2) = .ok e.2)
    (hhistory : ∀ state, node.published = some state → (n, state) ∈ more)
    (hheard : ∀ p state, ¬ node.phase.Heard encode decode p state)
    (hpolling : ∀ loc answers, node.phase = .polling loc answers → ∀ p, answers p = none)
    (hfailed : ∀ msg, node.phase ≠ .failed msg) :
    GalleryInv encode decode { s.set n node with history := s.history ++ more } := by
  refine ⟨fun e he => (List.mem_append.mp he).elim (h.decodes e) (hdecodes e), fun m x hx => ?_,
    fun m x state hx hstate => ?_, fun m x loc answers hx hphase p a ha => ?_,
    fun m p x y state state' hne hx hy hheardx hheardy => ?_, fun m x msg hx hphase => ?_⟩
  · rcases set_nodes_cases hx with ⟨rfl, rfl⟩ | ⟨-, hxs⟩
    · exact hpublishes
    · exact h.publishes m x hxs
  · rcases set_nodes_cases hx with ⟨rfl, rfl⟩ | ⟨-, hxs⟩
    · exact List.mem_append_right _ (hhistory state hstate)
    · exact List.mem_append_left _ (h.history m x state hxs hstate)
  · rcases set_nodes_cases hx with ⟨rfl, rfl⟩ | ⟨-, hxs⟩
    · rw [hpolling loc answers hphase p] at ha
      cases ha
    · rcases h.answers m x loc answers hxs hphase p a ha with hunavailable | ⟨state, hstate, hmem⟩
      · exact Or.inl hunavailable
      · exact Or.inr ⟨state, hstate, List.mem_append_left _ hmem⟩
  · rcases set_nodes_cases hx with ⟨rfl, rfl⟩ | ⟨-, hxs⟩
    · exact absurd hheardx (hheard p state)
    · rcases set_nodes_cases hy with ⟨rfl, rfl⟩ | ⟨-, hys⟩
      · exact absurd hheardy (hheard m state')
      · exact h.fresh m p x y state state' hne hxs hys hheardx hheardy
  · rcases set_nodes_cases hx with ⟨rfl, rfl⟩ | ⟨-, hxs⟩
    · exact absurd hphase (hfailed msg)
    · exact (h.failed m x msg hxs hphase).mono fun e he => List.mem_append_left _ he

/-- The poll of a peer is answered with what it publishes. -/
theorem GalleryInv.answer (h : GalleryInv encode decode s) {n p : Node}
    {node peer : GalleryNode} (hnode : s.nodes n = some node) (hpeer : s.nodes p = some peer)
    {loc : GalleryState} {answers : Node → Option GalleryAnswer} (hphase : node.phase = .polling loc answers) :
    GalleryInv encode decode (s.set n { node with
      phase := .polling loc (Function.update answers p (some (galleryRoute encode peer.published))) }) := by
  have hnodePublishes : node.published = some loc := by
    have hpublishes := h.publishes n node hnode
    rwa [hphase] at hpublishes
  have hroute : galleryRoute encode peer.published = (StatusCode.serviceUnavailable, []) ∨
      ∃ state, peer.published = some state ∧ galleryRoute encode peer.published = (StatusCode.ok, encode state) := by
    cases hpub : peer.published with
    | none => exact Or.inl rfl
    | some state => exact Or.inr ⟨state, rfl, rfl⟩
  -- what the node hears now is what the peer publishes, or it has heard it before
  have hheard : ∀ q state, Function.update answers p (some (galleryRoute encode peer.published)) q =
      some (StatusCode.ok, encode state) ∧ decode (encode state) = .ok state →
        (q = p ∧ peer.published = some state) ∨ node.phase.Heard encode decode q state := by
    rintro q state ⟨hq, hdecode⟩
    by_cases hqp : q = p
    · subst hqp
      rw [Function.update_self] at hq
      rcases hroute with hnone | ⟨state', hpub, hsome⟩
      · rw [hnone] at hq
        cases hq
      · rw [hsome] at hq
        have hsame := (Prod.mk.inj (Option.some.inj hq)).2
        have hstate : state' = state :=
          eq_of_encode_eq (h.decodes (q, state') (h.history q peer state' hpeer hpub)) hdecode hsame
        exact Or.inl ⟨rfl, hstate ▸ hpub⟩
    · rw [Function.update_of_ne hqp] at hq
      rw [hphase]
      exact Or.inr ⟨hq, hdecode⟩
  refine ⟨h.decodes, fun m x hx => ?_, fun m x state hx hstate => ?_, fun m x loc' answers' hx hphase' q a ha => ?_,
    fun m q x y state state' hne hx hy hheardx hheardy => ?_, fun m x msg hx hphase' => ?_⟩
  · rcases set_nodes_cases hx with ⟨rfl, rfl⟩ | ⟨-, hxs⟩
    · exact hnodePublishes
    · exact h.publishes m x hxs
  · rcases set_nodes_cases hx with ⟨rfl, rfl⟩ | ⟨-, hxs⟩
    · exact h.history m node state hnode hstate
    · exact h.history m x state hxs hstate
  · rcases set_nodes_cases hx with ⟨rfl, rfl⟩ | ⟨-, hxs⟩
    · cases hphase'
      by_cases hqp : q = p
      · subst hqp
        rw [Function.update_self] at ha
        cases ha
        rcases hroute with hnone | ⟨state, hpub, hsome⟩
        · exact Or.inl hnone
        · exact Or.inr ⟨state, hsome, h.history q peer state hpeer hpub⟩
      · rw [Function.update_of_ne hqp] at ha
        exact h.answers m node loc answers hnode hphase q a ha
    · exact h.answers m x loc' answers' hxs hphase' q a ha
  · rcases set_nodes_cases hx with ⟨rfl, rfl⟩ | ⟨-, hxs⟩
    · rcases set_nodes_cases hy with ⟨rfl, rfl⟩ | ⟨-, hys⟩
      · exact absurd rfl hne
      · rcases hheard q state hheardx with ⟨rfl, hpub⟩ | hold
        · rw [hpeer] at hys
          cases hys
          exact Or.inl hpub
        · exact h.fresh m q node y state state' hne hnode hys hold hheardy
    · rcases set_nodes_cases hy with ⟨rfl, rfl⟩ | ⟨-, hys⟩
      · rcases hheard m state' hheardy with ⟨rfl, hpub⟩ | hold
        · rw [hpeer] at hxs
          cases hxs
          exact Or.inr hpub
        · exact h.fresh m q x node state state' hne hxs hnode hheardx hold
      · exact h.fresh m q x y state state' hne hxs hys hheardx hheardy
  · rcases set_nodes_cases hx with ⟨rfl, rfl⟩ | ⟨-, hxs⟩
    · cases hphase'
    · exact h.failed m x msg hxs hphase'

/-- The answers of a round are checked. -/
theorem GalleryInv.proceed (h : GalleryInv encode decode s) {n : Node}
    {node : GalleryNode} (hnode : s.nodes n = some node) {loc : GalleryState}
    {answers : Node → Option GalleryAnswer} (hphase : node.phase = .polling loc answers)
    {responses : List GalleryAnswer} (hresponses : (otherNodes n).mapM answers = some responses) :
    GalleryInv encode decode (s.set n { node with
      phase := GalleryCluster.checked decode loc (((otherNodes n).map Fin.val).zip responses) }) := by
  have hpublished : node.published = some loc := by
    have hpublishes := h.publishes n node hnode
    rwa [hphase] at hpublishes
  have hloc := h.history n node loc hnode hpublished
  have hmap := mapM_answers hresponses
  have hlen : ((otherNodes n).map Fin.val).length = responses.length := by
    have hlen := congrArg List.length hmap
    rw [List.length_map, List.length_map] at hlen
    rw [List.length_map, hlen]
  unfold GalleryCluster.checked
  by_cases hunavailable :
      (((otherNodes n).map Fin.val).zip responses).any fun a => a.2.1 == StatusCode.serviceUnavailable
  · rw [if_pos hunavailable]
    refine h.set hnode rfl hpublished (fun p state hp hheard => ?_) (fun loc' answers' hphase' p => ?_)
      fun msg hphase' => ?_
    · cases hheard.1
    · cases hphase'
      rfl
    · cases hphase'
  · rw [if_neg hunavailable]
    have havailable : ∀ a ∈ responses, a.1 ≠ StatusCode.serviceUnavailable := by
      intro a ha hstatus
      refine hunavailable (List.any_eq_true.mpr ?_)
      rw [← List.map_snd_zip hlen.ge] at ha
      obtain ⟨pair, hpair, rfl⟩ := List.mem_map.mp ha
      exact ⟨pair, hpair, beq_iff_eq.mpr hstatus⟩
    rcases checkAnswers_cases h.decodes loc hmap (fun p _ a ha => h.answers n node loc answers hnode hphase p a ha)
      havailable with ⟨hok, hall⟩ | ⟨l₁, p, l₂, other, hsplit, hbefore, hother, hne, hbail⟩
    · rw [hok]
      refine h.set hnode rfl hpublished (fun p state hp hheard => ?_) (fun loc' answers' hphase' p => ?_)
        fun msg hphase' => ?_
      · rw [hphase, show state = loc from hheard]
        exact ⟨hall p (List.mem_filter.mpr ⟨List.mem_finRange p, by simpa using hp⟩), h.decodes _ hloc⟩
      · cases hphase'
      · cases hphase'
    · rw [hbail]
      refine h.set hnode rfl trivial (fun p state _ hheard => hheard.elim) (fun loc' answers' hphase' p => ?_)
        fun msg hphase' => ?_
      · cases hphase'
      · cases hphase'
        have hmem : p ∈ otherNodes n := hsplit ▸ List.mem_append_right _ List.mem_cons_self
        refine .mismatch p loc other (of_decide_eq_true (List.mem_filter.mp hmem).2) hloc hother hne ?_ rfl
        intro q hq hlt
        have hsorted : (otherNodes n).Pairwise (· < ·) := (List.pairwise_lt_finRange 3).sublist List.filter_sublist
        have hqmem : q ∈ otherNodes n := List.mem_filter.mpr ⟨List.mem_finRange q, by simpa using hq⟩
        rw [hsplit] at hsorted hqmem
        rcases List.mem_append.mp hqmem with hfirst | hrest
        · exact hbefore q hfirst
        · rcases List.mem_cons.mp hrest with rfl | hlast
          · exact absurd hlt (lt_irrefl q)
          · have hgt := (List.pairwise_cons.mp (List.pairwise_append.mp hsorted).2.1).1 q hlast
            exact absurd hlt (lt_asymm hgt)

theorem GalleryInv.step (h : GalleryInv encode decode s) {action : Node × GalleryAction}
    (hserde : ∀ loc, action.2 = .check loc → decode (encode loc) = .ok loc)
    (hstep : s.step encode decode action = some t) : GalleryInv encode decode t := by
  obtain ⟨n, action⟩ := action
  unfold GalleryCluster.step at hstep
  dsimp only at hstep
  cases hnode : s.nodes n with
  | none =>
    rw [hnode] at hstep
    cases action with
    | start =>
      cases hstep
      have hbegin : GalleryInv encode decode { s.set n ⟨none, .idle⟩ with history := s.history ++ [] } :=
        h.begin trivial (fun e he => absurd he List.not_mem_nil) (fun state hstate => by cases hstate)
          (fun p state hheard => hheard) (fun loc answers hphase => by cases hphase) fun msg hphase => by cases hphase
      rwa [List.append_nil] at hbegin
    | _ => cases hstep
  | some node =>
    rw [hnode] at hstep
    cases action with
    | start => cases hstep
    | crash =>
      cases hstep
      exact h.crash n
    | check loc =>
      dsimp only at hstep
      cases hphase : node.phase with
      | idle =>
        rw [hphase] at hstep
        cases hstep
        refine h.begin rfl (fun e he => ?_) (fun state hstate => ?_) (fun p state hheard => ?_)
          (fun loc' answers hphase' p => ?_) fun msg hphase' => ?_
        · rw [List.mem_singleton.mp he]
          exact hserde loc rfl
        · cases hstate
          exact List.mem_singleton_self _
        · cases hheard.1
        · cases hphase'
          rfl
        · cases hphase'
      | _ =>
        rw [hphase] at hstep
        cases hstep
    | answer peer =>
      dsimp only at hstep
      cases hphase : node.phase with
      | polling loc answers =>
        rw [hphase] at hstep
        cases hpeer : s.nodes peer with
        | none =>
          rw [hpeer] at hstep
          cases hstep
        | some peerNode =>
          rw [hpeer] at hstep
          dsimp only at hstep
          by_cases hne : peer ≠ n
          · rw [if_pos hne] at hstep
            cases hstep
            exact h.answer hnode hpeer hphase
          · rw [if_neg hne] at hstep
            cases hstep
      | _ =>
        rw [hphase] at hstep
        cases hstep
    | proceed =>
      dsimp only at hstep
      cases hphase : node.phase with
      | polling loc answers =>
        rw [hphase] at hstep
        obtain ⟨responses, hresponses, hstep⟩ := Option.bind_eq_some_iff.mp hstep
        cases hstep
        exact h.proceed hnode hphase hresponses
      | _ =>
        rw [hphase] at hstep
        cases hstep
    | expire polls =>
      dsimp only at hstep
      cases hphase : node.phase with
      | polling loc answers =>
        rw [hphase] at hstep
        cases hstep
        refine h.set hnode rfl trivial (fun p state _ hheard => hheard.elim) (fun loc' answers' hphase' p => ?_)
          fun msg hphase' => ?_
        · cases hphase'
        · cases hphase'
          cases polls with
          | true => exact .pollsExpired rfl
          | false => exact .checkExpired rfl
      | _ =>
        rw [hphase] at hstep
        cases hstep
    | load after =>
      dsimp only at hstep
      cases hphase : node.phase with
      | loading loc =>
        rw [hphase] at hstep
        have hpublished : node.published = some loc := by
          have hpublishes := h.publishes n node hnode
          rwa [hphase] at hpublishes
        dsimp only at hstep
        unfold ensureGalleryUnchanged at hstep
        by_cases hsame : loc = after
        · rw [if_pos hsame] at hstep
          cases hstep
          refine h.set hnode rfl (hsame ▸ hpublished) (fun p state _ hheard => ?_) (fun loc' answers' hphase' p => ?_)
            fun msg hphase' => ?_
          · rw [hphase]
            exact hheard.trans hsame.symm
          · cases hphase'
          · cases hphase'
        · rw [if_neg hsame] at hstep
          cases hstep
          refine h.set hnode rfl trivial (fun p state _ hheard => hheard.elim) (fun loc' answers' hphase' p => ?_)
            fun msg hphase' => ?_
          · cases hphase'
          · cases hphase'
            exact .changed loc after (h.history n node loc hnode hpublished) hsame rfl
      | _ =>
        rw [hphase] at hstep
        cases hstep

theorem GalleryInv.init : GalleryInv encode decode GalleryCluster.init where
  decodes := fun e he => absurd he List.not_mem_nil
  publishes := fun n node hnode => by cases hnode
  history := fun n node state hnode => by cases hnode
  answers := fun n node loc answers hnode => by cases hnode
  fresh := fun n p node peer state state' _ hnode => by cases hnode
  failed := fun n node msg hnode => by cases hnode

theorem GalleryInv.run {actions : List (Node × GalleryAction)}
    (hserde : ∀ n loc, (n, GalleryAction.check loc) ∈ actions → decode (encode loc) = .ok loc)
    (hrun : Transition.run (GalleryCluster.step encode decode) GalleryCluster.init actions = some s) :
    GalleryInv encode decode s := by
  refine Transition.run_invariant_along (fun _ _ _ hserde hstep h => h.step hserde hstep)
    (Transition.along_of_mem (fun a ha s loc hcheck => hserde a.1 loc ?_) GalleryCluster.init) hrun GalleryInv.init
  rw [← hcheck]
  exact ha

/-- The node has accepted the galleries of its peers as equal to its own. -/
def GalleryCluster.Accepts (s : GalleryCluster) (n : Node) (state : GalleryState) : Prop :=
  ∃ node, s.nodes n = some node ∧ (node.phase = .loading state ∨ node.phase = .loaded state)

theorem GalleryInv.accepts (h : GalleryInv encode decode s) {n : Node} {node : GalleryNode} {state : GalleryState}
    (hnode : s.nodes n = some node) (hphase : node.phase = .loading state ∨ node.phase = .loaded state) :
    node.published = some state ∧ ∀ p, node.phase.Heard encode decode p state := by
  have hpublishes := h.publishes n node hnode
  rcases hphase with hphase | hphase
  · rw [hphase] at hpublishes ⊢
    exact ⟨hpublishes, fun p => rfl⟩
  · rw [hphase] at hpublishes ⊢
    exact ⟨hpublishes, fun p => rfl⟩

end Runs

/-- **Galleries agree.** In every run of the three nodes, with crashes and restarts, with polls that are answered at
any time and deadlines that expire at any time, all nodes that have accepted their peers' galleries, and those that
have also loaded their own, have the same state. A node that fails reports an expired deadline, a change during its own
loading, or the first of its peers, in their order, that has published another state; the peers before it have
published the same. -/
theorem accepted_galleries_agree (encode : GalleryState → Bytes) (decode : Bytes → Except String GalleryState)
    {actions : List (Node × GalleryAction)} {s : GalleryCluster}
    (hserde : ∀ n loc, (n, GalleryAction.check loc) ∈ actions → decode (encode loc) = .ok loc)
    (hrun : Transition.run (GalleryCluster.step encode decode) GalleryCluster.init actions = some s) :
    (∀ n p state state', s.Accepts n state → s.Accepts p state' → state = state') ∧
    ∀ n node msg, s.nodes n = some node → node.phase = .failed msg → GalleryFailure s.history n msg := by
  have h := GalleryInv.run hserde hrun
  refine ⟨fun n p state state' hn hp => ?_, h.failed⟩
  obtain ⟨node, hnode, hphase⟩ := hn
  obtain ⟨peer, hpeer, hphase'⟩ := hp
  obtain ⟨hpublished, hheard⟩ := h.accepts hnode hphase
  obtain ⟨hpublished', hheard'⟩ := h.accepts hpeer hphase'
  by_cases hne : n = p
  · subst hne
    rw [hnode] at hpeer
    cases hpeer
    exact Option.some.inj (hpublished.symm.trans hpublished')
  · rcases h.fresh n p node peer state state' hne hnode hpeer (hheard p) (hheard' n) with hfresh | hfresh
    · exact Option.some.inj (hfresh.symm.trans hpublished')
    · exact Option.some.inj (hpublished.symm.trans hfresh)

/-- A gallery with two entries. -/
def smallGallery : GalleryState := ⟨2, 43, List.replicate 32 7⟩

/-- Its text in JSON. -/
def smallGalleryJson : Bytes :=
  [123, 34, 100, 98, 95, 108, 101, 110, 34, 58, 50, 44, 34, 110, 101, 120, 116, 95, 97, 118, 97, 105, 108, 97, 98, 108,
    101, 95, 115, 101, 114, 105, 97, 108, 95, 105, 100, 34, 58, 52, 51, 44, 34, 115, 101, 114, 105, 97, 108, 95, 105,
    100, 115, 95, 100, 105, 103, 101, 115, 116, 34, 58, 91] ++ (List.replicate 31 [55, 44]).flatten ++ [55, 93, 125]

def smallGalleryEncode (_ : GalleryState) : Bytes := smallGalleryJson

def smallGalleryDecode (text : Bytes) : Except String GalleryState :=
  if text = smallGalleryJson then .ok smallGallery else .error "expected value"

/-- The first node polls twice, since the second one has nothing to tell at first; the third one crashes at the end. -/
def galleryRun : List (Node × GalleryAction) :=
  [(0, .start), (1, .start), (2, .start), (0, .check smallGallery), (0, .answer 1), (1, .check smallGallery),
    (2, .check smallGallery), (0, .answer 2), (0, .proceed), (0, .answer 1), (0, .answer 2), (0, .proceed),
    (0, .load smallGallery), (1, .answer 0), (1, .answer 2), (1, .proceed), (2, .crash)]

theorem accepted_galleries_agree_small : ∃ s,
    Transition.run (GalleryCluster.step smallGalleryEncode smallGalleryDecode) GalleryCluster.init galleryRun = some s ∧
      s.Accepts 0 smallGallery ∧ ∀ state, s.Accepts 1 state → state = smallGallery := by
  obtain ⟨s, hrun, hnode⟩ : ∃ s, Transition.run (GalleryCluster.step smallGalleryEncode smallGalleryDecode)
    GalleryCluster.init galleryRun = some s ∧ s.nodes 0 = some ⟨some smallGallery, .loaded smallGallery⟩ :=
    ⟨_, rfl, rfl⟩
  have hserde : ∀ n loc, (n, GalleryAction.check loc) ∈ galleryRun →
      smallGalleryDecode (smallGalleryEncode loc) = .ok loc := by
    intro n loc hmem
    have hloc : loc = smallGallery := by
      simp only [galleryRun, List.mem_cons, Prod.mk.injEq, GalleryAction.check.injEq, List.not_mem_nil, reduceCtorEq,
        and_false, or_false, false_or] at hmem
      rcases hmem with ⟨-, h⟩ | ⟨-, h⟩ | ⟨-, h⟩ <;> exact h
    rw [hloc]
    exact if_pos rfl
  have haccepts : s.Accepts 0 smallGallery := ⟨_, hnode, Or.inr rfl⟩
  exact ⟨s, hrun, haccepts, fun state hstate => (accepted_galleries_agree _ _ hserde hrun).1 1 0 _ _ hstate haccepts⟩

end AmpcCommon.Startup
