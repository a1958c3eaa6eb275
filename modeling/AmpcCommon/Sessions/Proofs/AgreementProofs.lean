import AmpcCommon.Sessions.NetworkHandle

/-!
# Agreement on session ids

The counters of the three handles stay together as long as a round ends the same way for everybody: a
party fails only while nobody has moved its counter, and moves its counter only while nobody has
failed. The invariant `RoundInv` says where each counter is in the course of a round.
-/

namespace AmpcCommon.Sessions

/-- The condition on a step, in the state before it: a party fails only when no party has moved its
counter in this round, and succeeds only when no party has failed, unless success does not move the
counter. -/
def KeepsRound (numSessions : Nat) (s : State) : Action → Prop
  | .fail _ => ∀ q, s.phase q = .done true → advance numSessions (s.base q) = s.base q
  | .succeed p => ∀ q, s.phase q = .done false → advance numSessions (s.base p) = s.base p
  | _ => True

instance (numSessions : Nat) (s : State) : ∀ a, Decidable (KeepsRound numSessions s a)
  | .fail _ => inferInstanceAs (Decidable (∀ _, _ → _))
  | .succeed _ => inferInstanceAs (Decidable (∀ _, _ → _))
  | .connect _ => inferInstanceAs (Decidable True)
  | .send _ => inferInstanceAs (Decidable True)
  | .deliver _ _ => inferInstanceAs (Decidable True)
  | .receive _ => inferInstanceAs (Decidable True)
  | .nextRound => inferInstanceAs (Decidable True)

/-- What holds in the course of a round. -/
structure RoundInv (numSessions : Nat) (s : State) : Prop where
  base_eq : ∀ p q, s.base p = s.base q
  /-- Only the parties that returned `Ok` have moved their counter. -/
  next_eq : ∀ p, s.next p =
    if s.phase p = .done true then advance numSessions (s.base p) else s.base p
  /-- A round that ends differently for two parties does not move the counter. -/
  mixed : ∀ p q, s.phase p = .done true → s.phase q = .done false →
    advance numSessions (s.base p) = s.base p
  wire : ∀ p q, ∀ m ∈ s.wire p q, m.sessionId = s.base p + m.idx ∧ m.idx < numSessions
  inbox : ∀ p q, ∀ m ∈ s.inbox p q, m.sessionId = s.base p + m.idx ∧ m.idx < numSessions

section Updates

variable {n : Nat} {s : State}

theorem RoundInv.setWire (h : RoundInv n s) {p q : Party} {msgs : List Msg}
    (hm : ∀ m ∈ msgs, m.sessionId = s.base p + m.idx ∧ m.idx < n) :
    RoundInv n (s.setWire p q msgs) where
  base_eq := h.base_eq
  next_eq := h.next_eq
  mixed := h.mixed
  inbox := h.inbox
  wire p' q' m hmem := by
    by_cases hp : p' = p
    · subst hp
      by_cases hq : q' = q
      · subst hq
        simp only [State.setWire, Function.update_self] at hmem
        exact hm m hmem
      · simp only [State.setWire, Function.update_self, Function.update_of_ne hq] at hmem
        exact h.wire p' q' m hmem
    · simp only [State.setWire, Function.update_of_ne hp] at hmem
      exact h.wire p' q' m hmem

theorem RoundInv.setInbox (h : RoundInv n s) {p q : Party} {msgs : List Msg}
    (hm : ∀ m ∈ msgs, m.sessionId = s.base p + m.idx ∧ m.idx < n) :
    RoundInv n (s.setInbox p q msgs) where
  base_eq := h.base_eq
  next_eq := h.next_eq
  mixed := h.mixed
  wire := h.wire
  inbox p' q' m hmem := by
    by_cases hp : p' = p
    · subst hp
      by_cases hq : q' = q
      · subst hq
        simp only [State.setInbox, Function.update_self] at hmem
        exact hm m hmem
      · simp only [State.setInbox, Function.update_self, Function.update_of_ne hq] at hmem
        exact h.inbox p' q' m hmem
    · simp only [State.setInbox, Function.update_of_ne hp] at hmem
      exact h.inbox p' q' m hmem

theorem setPhase_phase (s : State) (p q : Party) (phase : Phase) :
    (s.setPhase p phase).phase q = if q = p then phase else s.phase q := by
  by_cases h : q = p
  · subst h
    simp [State.setPhase]
  · simp [State.setPhase, h]

/-- A party that goes on, or that fails while nobody has moved its counter. -/
theorem RoundInv.setPhase (h : RoundInv n s) {p : Party} {phase : Phase}
    (hold : s.phase p ≠ .done true) (hnew : phase ≠ .done true)
    (hfail : phase = .done false → ∀ q, s.phase q = .done true →
      advance n (s.base q) = s.base q) :
    RoundInv n (s.setPhase p phase) where
  base_eq := h.base_eq
  next_eq q := by
    rw [setPhase_phase]
    by_cases hq : q = p
    · subst hq
      have := h.next_eq q
      rw [if_neg hold] at this
      rw [if_pos rfl, if_neg hnew]
      exact this
    · rw [if_neg hq]
      exact h.next_eq q
  mixed q r hq hr := by
    rw [setPhase_phase] at hq hr
    split_ifs at hq with hqp
    · exact absurd hq hnew
    · split_ifs at hr with hrp
      · exact hfail hr q hq
      · exact h.mixed q r hq hr
  wire := h.wire
  inbox := h.inbox

end Updates

theorem roundInv_init (n : Nat) : RoundInv n init where
  base_eq _ _ := rfl
  next_eq _ := rfl
  mixed _ _ h := by cases h
  wire _ _ _ h := by cases h
  inbox _ _ _ h := by cases h

/-- Once all have returned, their counters agree: either all have returned the same way, or no counter has moved. -/
theorem RoundInv.next_agree {n : Nat} {s : State} (h : RoundInv n s) (hdone : ∀ p, ∃ ok, s.phase p = .done ok)
    (p q : Party) : s.next p = s.next q := by
  have hcase : ∀ p, s.next p = advance n (s.base p) ∧ s.phase p = .done true ∨
      s.next p = s.base p ∧ s.phase p = .done false := by
    intro p
    have hnext := h.next_eq p
    obtain ⟨ok, hok⟩ := hdone p
    cases ok with
    | true =>
      rw [if_pos hok] at hnext
      exact Or.inl ⟨hnext, hok⟩
    | false =>
      rw [if_neg (by rw [hok]; nofun)] at hnext
      exact Or.inr ⟨hnext, hok⟩
  have hb := h.base_eq p q
  rcases hcase p with ⟨hp, hp'⟩ | ⟨hp, hp'⟩ <;> rcases hcase q with ⟨hq, hq'⟩ | ⟨hq, hq'⟩
  · rw [hp, hq, hb]
  · rw [hp, hq, h.mixed p q hp' hq', hb]
  · rw [hp, hq, h.mixed q p hq' hp', hb]
  · rw [hp, hq, hb]

/-- A step that meets the condition keeps the invariant. -/
theorem RoundInv.step {n : Nat} {s t : State} {a : Action} (hcond : KeepsRound n s a)
    (hstep : Sessions.step n s a = some t) (h : RoundInv n s) : RoundInv n t := by
  cases a with
  | connect p =>
    simp only [Sessions.step] at hstep
    split_ifs at hstep with hphase
    cases hstep
    exact h.setPhase (by rw [hphase]; nofun) nofun nofun
  | send p =>
    simp only [Sessions.step] at hstep
    split at hstep
    · rename_i pc hphase
      split_ifs at hstep with hpc
      cases hstep
      refine RoundInv.setPhase (RoundInv.setWire h fun m hm => ?_) (by
        show s.phase p ≠ _
        rw [hphase]
        nofun) nofun nofun
      rcases List.mem_append.mp hm with hm | hm
      · exact h.wire _ _ m hm
      · rw [List.mem_singleton.mp hm]
        exact ⟨rfl, by show pc / 4 < n; omega⟩
    · cases hstep
  | deliver p q =>
    simp only [Sessions.step] at hstep
    split at hstep
    · cases hstep
    · cases hstep
    · rename_i msg rest hwire _
      have hrest : ∀ m ∈ rest, m.sessionId = s.base p + m.idx ∧ m.idx < n := fun m hm =>
        h.wire p q m (hwire ▸ List.mem_cons_of_mem _ hm)
      split_ifs at hstep with hknown
      · cases hstep
        refine RoundInv.setInbox (h.setWire hrest) fun m hm => ?_
        rcases List.mem_append.mp hm with hm | hm
        · exact h.inbox p q m hm
        · rw [List.mem_singleton.mp hm]
          exact h.wire p q msg (hwire ▸ List.mem_cons_self)
      · cases hstep
        exact h.setWire hrest
  | receive p =>
    simp only [Sessions.step] at hstep
    split at hstep
    · rename_i pc hphase
      split_ifs at hstep with hpc
      split at hstep
      · cases hstep
      · rename_i msg hfind
        have hmem := List.mem_of_find?_eq_some hfind
        have hid : msg.sessionId = s.base p + pc / 4 := by simpa using List.find?_some hfind
        have hidx : msg.idx = pc / 4 := by
          have hsent := (h.inbox _ _ msg hmem).1
          rw [h.base_eq _ p] at hsent
          omega
        rw [if_pos hidx] at hstep
        cases hstep
        refine RoundInv.setPhase (RoundInv.setInbox h fun m hm => ?_) (by
          show s.phase p ≠ _
          rw [hphase]
          nofun) nofun nofun
        exact h.inbox _ _ m (List.mem_of_mem_erase hm)
    · cases hstep
  | succeed p =>
    simp only [Sessions.step] at hstep
    split_ifs at hstep with hphase
    cases hstep
    have hp : s.next p = s.base p := by
      have := h.next_eq p
      rwa [if_neg (by rw [hphase]; nofun)] at this
    refine ⟨h.base_eq, fun q => ?_, fun q r hq hr => ?_, h.wire, h.inbox⟩
    · show Function.update s.next p (advance n (s.next p)) q =
        if (s.setPhase p (.done true)).phase q = .done true then advance n (s.base q) else s.base q
      rw [setPhase_phase]
      by_cases hq : q = p
      · subst hq
        rw [Function.update_self, hp, if_pos rfl, if_pos rfl]
      · rw [Function.update_of_ne hq, if_neg hq]
        exact h.next_eq q
    · show advance n (s.base q) = s.base q
      replace hr : (s.setPhase p (.done true)).phase r = .done false := hr
      rw [setPhase_phase] at hr
      split_ifs at hr with hrp
      · cases hr
      · have := hcond r hr
        rwa [h.base_eq p q] at this
  | fail p =>
    simp only [Sessions.step] at hstep
    split at hstep
    · cases hstep
    · rename_i hphase
      cases hstep
      exact h.setPhase (fun hdone => hphase true hdone) nofun fun _ => hcond
  | nextRound =>
    simp only [Sessions.step] at hstep
    split_ifs at hstep with hdone
    cases hstep
    exact ⟨h.next_agree hdone, fun p => rfl, nofun, nofun, nofun⟩

/-- **Agreement on session ids.** In every run of joint rounds in which a party fails only while
nobody has moved its counter, and moves its counter only while nobody has failed, the sessions of the
current round start at the same id for all parties, and every message in flight is addressed to a
session its receiver has. -/
theorem session_ids_agree (numSessions : Nat) (actions : List Action) (s : State)
    (hcond : Transition.Along (step numSessions) (KeepsRound numSessions) init actions)
    (hrun : Transition.run (step numSessions) init actions = some s) :
    (∀ p q, s.base p = s.base q) ∧
      ∀ p q, ∀ m ∈ s.wire p q, s.knows numSessions q m.sessionId := by
  have h : RoundInv numSessions s := Transition.run_invariant_along
    (fun _ _ _ hc hs hi => RoundInv.step hc hs hi) hcond hrun (roundInv_init numSessions)
  refine ⟨h.base_eq, fun p q m hm => ?_⟩
  obtain ⟨hid, hidx⟩ := h.wire p q m hm
  rw [State.knows, hid, h.base_eq q p]
  omega

/-- A round of one session that all parties validate. -/
def goodRound : List Action :=
  [.connect 0, .connect 1, .connect 2, .send 0, .send 0, .send 1, .send 1, .send 2, .send 2,
    .deliver 0 1, .deliver 0 2, .deliver 1 2, .deliver 1 0, .deliver 2 0, .deliver 2 1,
    .receive 0, .receive 0, .receive 1, .receive 1, .receive 2, .receive 2]

theorem session_ids_agree_two_rounds :
    ∃ s, Transition.run (step 1) init
        (goodRound ++ [.succeed 0, .succeed 1, .succeed 2, .nextRound, .connect 0, .send 0]) =
          some s ∧ ∀ p q, s.base p = s.base q := by
  obtain ⟨s, hs⟩ : ∃ s, Transition.run (step 1) init
      (goodRound ++ [.succeed 0, .succeed 1, .succeed 2, .nextRound, .connect 0, .send 0]) =
        some s := ⟨_, rfl⟩
  exact ⟨s, hs, (session_ids_agree 1 _ s (by decide) hs).1⟩

/-- Two parties validate the session and return `Ok`; the third one has sent its messages, too, but is
cancelled before it returns. The next round starts at different ids. -/
theorem session_ids_drift :
    ¬ ∀ s, Transition.run (step 1) init
        (goodRound ++ [.succeed 0, .succeed 1, .fail 2, .nextRound]) = some s →
      ∀ p q, s.base p = s.base q := by
  intro h
  have := h _ rfl 0 2
  revert this
  decide

end AmpcCommon.Sessions
