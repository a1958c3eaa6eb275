import AmpcCommon.Batches.States

/-!
# The size of a batch, proofs

The endpoint answers a request for a batch only with a state of this batch, so the answers a client accepts are of its
own batch. Unless the endpoint was started with a state of this very batch, the answer was published for it, so that all
calls for the batch see the same three values.
-/

namespace AmpcCommon.Batches

open Startup

/-! ## The client -/

/-- A state that is accepted is one of the replies. -/
theorem fetchState_ok {own : BatchSyncState} {host : String} {replies : List (Reply BatchSyncState)}
    {state : BatchSyncState} (h : fetchState own host replies = .ok state) : .state state ∈ replies := by
  unfold fetchState at h
  cases hpoll : poll (rejectsState own) replies none with
  | error cause =>
    rw [hpoll] at h
    cases h
  | ok state' =>
    rw [hpoll] at h
    cases h
    exact (poll_eq_ok hpoll).1

theorem getBatchSyncStates_ok {config : ServerCoordinationConfig} {own : BatchSyncState}
    {fromNext fromPrev : List (Reply BatchSyncState)} {states : List BatchSyncState}
    (h : getBatchSyncStates config (some own) fromNext fromPrev = .ok states) :
    ∃ next prev, states = [own, next, prev] ∧ .state next ∈ fromNext ∧ .state prev ∈ fromPrev := by
  unfold getBatchSyncStates at h
  obtain ⟨nextNode, -, h⟩ := Outcome.bind_eq_ok.mp h
  obtain ⟨prevNode, -, h⟩ := Outcome.bind_eq_ok.mp h
  obtain ⟨next, hnext, h⟩ := Outcome.bind_eq_ok.mp h
  obtain ⟨prev, hprev, h⟩ := Outcome.bind_eq_ok.mp h
  cases h
  exact ⟨next, prev, rfl, fetchState_ok hnext, fetchState_ok hprev⟩

theorem messagesToPoll_three (own a b c : BatchSyncState) :
    (BatchSyncResult.mk own [a, b, c]).messagesToPoll =
      min a.messagesToPoll (min b.messagesToPoll c.messagesToPoll) := by
  show min (min a.messagesToPoll b.messagesToPoll) c.messagesToPoll = _
  exact Nat.min_assoc _ _ _

/-! ## What the parties have published -/

/-- The state was published by the party, for the batch. -/
def PublishedFor (published : Party → List BatchSyncSharedState) (p : Party) (batchId : Nat) (state : BatchSyncState) :
    Prop :=
  state.batchId = batchId ∧ ⟨state.batchId, state.messagesToPoll⟩ ∈ published p

/-- The endpoint answers with a state only if it is published for the batch that is asked for. -/
theorem batchSyncRoute_eq_state {shared : BatchSyncSharedState} {batchId : Nat} {state : BatchSyncState}
    (h : batchSyncRoute shared batchId = .state state) : state = shared.state ∧ shared.batchId = batchId := by
  unfold batchSyncRoute at h
  split_ifs at h with hid
  cases h
  exact ⟨rfl, (not_not.mp hid).symm⟩

/-- The state is of the batch, and the party has published it or was started with it. -/
def AnsweredFor (initial : Party → BatchSyncSharedState) (published : Party → List BatchSyncSharedState) (p : Party)
    (batchId : Nat) (state : BatchSyncState) : Prop :=
  PublishedFor published p batchId state ∨ state = (initial p).state ∧ state.batchId = batchId

/-- What is known of a call: the state it was called with is published for its batch, and those it was given are of its
batch. -/
structure CallInv (initial : Party → BatchSyncSharedState) (published : Party → List BatchSyncSharedState)
    (c : StatesCall) : Prop where
  own : PublishedFor published c.party c.ownState.batchId c.ownState
  flight : ∀ state, c.flight = .answered (.state state) →
    AnsweredFor initial published (polledParty c.party c.host) c.ownState.batchId state
  replies : ∀ d state, .state state ∈ c.replies d →
    AnsweredFor initial published (polledParty c.party d) c.ownState.batchId state
  returned : ∀ states, c.returned = some (.ok states) → ∃ next prev, states = [c.ownState, next, prev] ∧
    AnsweredFor initial published (polledParty c.party .next) c.ownState.batchId next ∧
    AnsweredFor initial published (polledParty c.party .prev) c.ownState.batchId prev

variable {config : ServerCoordinationConfig} {initial : Party → BatchSyncSharedState}
  {published published' : Party → List BatchSyncSharedState} {shared : Party → BatchSyncSharedState}

theorem PublishedFor.mono (hle : ∀ p, published p ⊆ published' p) {p : Party} {batchId : Nat} {state : BatchSyncState}
    (h : PublishedFor published p batchId state) : PublishedFor published' p batchId state :=
  ⟨h.1, hle p h.2⟩

theorem AnsweredFor.mono (hle : ∀ p, published p ⊆ published' p) {p : Party} {batchId : Nat} {state : BatchSyncState}
    (h : AnsweredFor initial published p batchId state) : AnsweredFor initial published' p batchId state :=
  h.imp_left fun hpublished => hpublished.mono hle

theorem AnsweredFor.published_of_ne {p : Party} {batchId : Nat} {state : BatchSyncState}
    (h : AnsweredFor initial published p batchId state) (hne : (initial p).batchId ≠ batchId) :
    PublishedFor published p batchId state := by
  rcases h with hpublished | ⟨rfl, hid⟩
  · exact hpublished
  · exact absurd hid hne

theorem CallInv.mono (hle : ∀ p, published p ⊆ published' p) {c : StatesCall} (h : CallInv initial published c) :
    CallInv initial published' c where
  own := h.own.mono hle
  flight state hstate := (h.flight state hstate).mono hle
  replies d state hstate := (h.replies d state hstate).mono hle
  returned states hstates := by
    obtain ⟨next, prev, heq, hnext, hprev⟩ := h.returned states hstates
    exact ⟨next, prev, heq, hnext.mono hle, hprev.mono hle⟩

/-- What happens to a call keeps the invariant, when the shared states are published or the first ones. -/
theorem CallInv.act (hshared : ∀ p, shared p ∈ published p ∨ shared p = initial p) {c c' : StatesCall} {a : CallAction}
    (hact : c.act config shared a = some c') (h : CallInv initial published c) : CallInv initial published c' := by
  unfold StatesCall.act at hact
  cases a with
  | request =>
    dsimp only at hact
    split at hact
    · split_ifs at hact
      cases hact
      exact ⟨h.own, (fun state hstate => by cases hstate), h.replies, h.returned⟩
    · cases hact
  | serve =>
    dsimp only at hact
    split at hact
    · cases hact
      refine ⟨h.own, fun state hstate => ?_, h.replies, h.returned⟩
      obtain ⟨rfl, hid⟩ := batchSyncRoute_eq_state (Flight.answered.inj hstate)
      rcases hshared (polledParty c.party c.host) with hpublished | hfirst
      · exact Or.inl ⟨hid, hpublished⟩
      · exact Or.inr ⟨congrArg BatchSyncSharedState.state hfirst, hid⟩
    · cases hact
  | fail reply =>
    dsimp only at hact
    split at hact
    · cases hact
    · next hreply =>
      cases hact
      refine ⟨h.own, fun state hstate => ?_, h.replies, h.returned⟩
      exact absurd (Flight.answered.inj hstate) (hreply state)
    · cases hact
  | deliver =>
    dsimp only at hact
    split at hact
    · next reply hflight =>
      cases hact
      refine ⟨h.own, (fun state hstate => by cases hstate), fun d state hstate => ?_, h.returned⟩
      by_cases hd : d = c.host
      · subst hd
        dsimp only at hstate
        rw [Function.update_self] at hstate
        rcases List.mem_append.mp hstate with hold | hnew
        · exact h.replies _ state hold
        · rw [← List.mem_singleton.mp hnew] at hflight
          exact h.flight state hflight
      · dsimp only at hstate
        rw [Function.update_of_ne hd] at hstate
        exact h.replies d state hstate
    · cases hact
  | finish =>
    dsimp only at hact
    split at hact
    · cases hact
    · cases hact
      refine ⟨h.own, h.flight, h.replies, fun states hstates => ?_⟩
      obtain ⟨next, prev, heq, hnext, hprev⟩ := getBatchSyncStates_ok (Option.some.inj hstates)
      exact ⟨next, prev, heq, h.replies .next next hnext, h.replies .prev prev hprev⟩

namespace System

/-- The invariant of the system: a party has published a state at most once for a batch, its shared state is the last
one, or the first one when it has published none, and the calls know only such states. -/
structure Inv (initial : Party → BatchSyncSharedState) (s : System) : Prop where
  shared : ∀ p, s.published p ≠ [] → s.shared p ∈ s.published p
  first : ∀ p, s.published p = [] → s.shared p = initial p
  ascending : ∀ p, (s.published p).Pairwise fun x y => x.batchId < y.batchId
  calls : ∀ c ∈ s.calls, CallInv initial s.published c

theorem Inv.enter {s : System} (h : s.Inv initial) {p : Party} {new : BatchSyncSharedState}
    (hlt : ∀ x ∈ s.published p, x.batchId < new.batchId) : Inv initial { s with
      shared := Function.update s.shared p new
      published := Function.update s.published p (s.published p ++ [new]) } := by
  have hgrows : ∀ q, s.published q ⊆ Function.update s.published p (s.published p ++ [new]) q := by
    intro q
    by_cases hq : q = p
    · subst hq
      rw [Function.update_self]
      exact List.subset_append_left _ _
    · rw [Function.update_of_ne hq]
      exact List.Subset.refl _
  refine ⟨fun q hq' => ?_, fun q hq' => ?_, fun q => ?_, fun c hc => (h.calls c hc).mono hgrows⟩
  · by_cases hq : q = p
    · subst hq
      dsimp only
      rw [Function.update_self, Function.update_self]
      exact List.mem_append_right _ (List.mem_singleton_self _)
    · dsimp only at hq' ⊢
      rw [Function.update_of_ne hq] at hq'
      rw [Function.update_of_ne hq, Function.update_of_ne hq]
      exact h.shared q hq'
  · by_cases hq : q = p
    · subst hq
      dsimp only at hq'
      rw [Function.update_self] at hq'
      exact absurd hq' (List.append_ne_nil_of_right_ne_nil _ (List.cons_ne_nil _ _))
    · dsimp only at hq' ⊢
      rw [Function.update_of_ne hq] at hq'
      rw [Function.update_of_ne hq]
      exact h.first q hq'
  · by_cases hq : q = p
    · subst hq
      dsimp only
      rw [Function.update_self]
      refine List.pairwise_append.mpr ⟨h.ascending q, List.pairwise_singleton _ _, ?_⟩
      intro x hx y hy
      rw [List.mem_singleton.mp hy]
      exact hlt x hx
    · dsimp only
      rw [Function.update_of_ne hq]
      exact h.ascending q

theorem Inv.step {s t : System} {a : Action} (ht : s.step config a = some t) (h : s.Inv initial) :
    t.Inv initial := by
  unfold System.step at ht
  cases a with
  | enter p batchId messagesToPoll =>
    dsimp only at ht
    split_ifs at ht with hlt
    cases ht
    exact h.enter hlt
  | call p =>
    dsimp only at ht
    split_ifs at ht with hpublished
    cases ht
    refine ⟨h.shared, h.first, h.ascending, fun c hc => ?_⟩
    rcases List.mem_append.mp hc with hold | hnew
    · exact h.calls c hold
    · rw [List.mem_singleton.mp hnew]
      exact ⟨⟨rfl, h.shared p hpublished⟩, (fun state hstate => by cases hstate),
        (fun d state hstate => by cases hstate), fun states hstates => by cases hstates⟩
  | act i a =>
    obtain ⟨c, hc, ht⟩ := Option.bind_eq_some_iff.mp ht
    obtain ⟨c', hact, ht⟩ := Option.bind_eq_some_iff.mp ht
    cases ht
    refine ⟨h.shared, h.first, h.ascending, fun d hd => ?_⟩
    have hshared : ∀ p, s.shared p ∈ s.published p ∨ s.shared p = initial p := by
      intro p
      by_cases hp : s.published p = []
      · exact Or.inr (h.first p hp)
      · exact Or.inl (h.shared p hp)
    rcases List.mem_or_eq_of_mem_set hd with hold | rfl
    · exact h.calls d hold
    · exact (h.calls c (List.mem_of_getElem? hc)).act hshared hact

/-- Ids that go up tell the states apart. -/
theorem find_ascending {l : List BatchSyncSharedState} (h : l.Pairwise fun x y => x.batchId < y.batchId)
    {x : BatchSyncSharedState} (hx : x ∈ l) : l.find? (fun y => y.batchId = x.batchId) = some x := by
  induction l with
  | nil => cases hx
  | cons y l ih =>
    obtain ⟨hfirst, hrest⟩ := List.pairwise_cons.mp h
    rcases List.mem_cons.mp hx with rfl | hx
    · exact List.find?_cons_of_pos (decide_eq_true rfl)
    · have hne : ¬ y.batchId = x.batchId := Nat.ne_of_lt (hfirst x hx)
      rw [List.find?_cons_of_neg (by simpa using hne)]
      exact ih hrest hx

/-- The value a party has published for a batch. -/
theorem Inv.publishedFor_eq {s : System} (h : s.Inv initial) {p : Party} {batchId : Nat} {state : BatchSyncState}
    (hstate : PublishedFor s.published p batchId state) : s.publishedFor p batchId = some state.messagesToPoll := by
  obtain ⟨rfl, hmem⟩ := hstate
  have hfind := find_ascending (h.ascending p) hmem
  dsimp only at hfind
  unfold publishedFor
  rw [hfind]
  rfl

/-- No endpoint that the call polls was started with a state of its batch. -/
def Fresh (initial : Party → BatchSyncSharedState) (c : StatesCall) : Prop :=
  ∀ d, (initial (polledParty c.party d)).batchId ≠ c.ownState.batchId

/-- Then it has what the three parties have published for its batch. -/
theorem Inv.returned {s : System} (h : s.Inv initial) {c : StatesCall} (hc : c ∈ s.calls) (hfresh : Fresh initial c)
    {states : List BatchSyncState} (hstates : c.returned = some (.ok states)) :
    ∃ m : Party → Nat, (∀ p, s.publishedFor p c.ownState.batchId = some (m p)) ∧
      (BatchSyncResult.mk c.ownState states).messagesToPoll = min (m 0) (min (m 1) (m 2)) := by
  have hcall := h.calls c hc
  obtain ⟨next, prev, rfl, hnext, hprev⟩ := hcall.returned states hstates
  have hown := h.publishedFor_eq hcall.own
  have hnext' := h.publishedFor_eq (hnext.published_of_ne (hfresh .next))
  have hprev' := h.publishedFor_eq (hprev.published_of_ne (hfresh .prev))
  have hall : ∀ p, ∃ m, s.publishedFor p c.ownState.batchId = some m := by
    intro p
    have hcases : ∀ p q : Party, p = q ∨ p = q + 1 ∨ p = q + 2 := by decide
    rcases hcases p c.party with rfl | rfl | rfl
    · exact ⟨_, hown⟩
    · exact ⟨_, hnext'⟩
    · exact ⟨_, hprev'⟩
  choose m hm using hall
  refine ⟨m, hm, ?_⟩
  rw [messagesToPoll_three]
  have hm₀ : m c.party = c.ownState.messagesToPoll := Option.some.inj ((hm _).symm.trans hown)
  have hm₁ : m (c.party + 1) = next.messagesToPoll := Option.some.inj ((hm _).symm.trans hnext')
  have hm₂ : m (c.party + 2) = prev.messagesToPoll := Option.some.inj ((hm _).symm.trans hprev')
  rw [← hm₀, ← hm₁, ← hm₂]
  generalize c.party = p
  match p with
  | 0 => rfl
  | 1 =>
    show min (m 1) (min (m 2) (m 0)) = _
    omega
  | 2 =>
    show min (m 2) (min (m 0) (m 1)) = _
    omega

end System

end AmpcCommon.Batches
