import AmpcCommon.Startup.Shutdown
import AmpcCommon.Base.Counts

/-!
# Waiting for the pending batches: the shutdown handler

A round of the loop reads the count, and takes as long as the interval when batches are pending and the time is not up.
So the rounds that the timeout has room for are enough, and what the waiting returns tells what it has read. -/

namespace AmpcCommon.Shutdown

open RelyGuarantee RelyGuarantee.Prog

variable {draining : Bool} {shutdown : Prop} {s t u : ShutdownHandler}

/-! ## What happens beside the waiting task -/

structure Interferes (draining : Bool) (s t : ShutdownHandler) : Prop where
  ct : s.ct = true → t.ct = true
  networkCt : s.networkCt = true → t.networkCt = true
  reads : t.reads = s.reads
  now : s.now ≤ t.now
  batches : draining = true → t.nBatchesPendingCompletion ≤ s.nBatchesPendingCompletion

theorem Interferes.refl (s : ShutdownHandler) : Interferes draining s s :=
  ⟨id, id, rfl, Nat.le_refl _, fun _ => Nat.le_refl _⟩

theorem Interferes.trans (s t u : ShutdownHandler) (h : Interferes draining s t) (h' : Interferes draining t u) :
    Interferes draining s u :=
  ⟨h'.ct ∘ h.ct, h'.networkCt ∘ h.networkCt, h'.reads.trans h.reads, Nat.le_trans h.now h'.now,
    fun hd => Nat.le_trans (h'.batches hd) (h.batches hd)⟩

theorem interfere_interferes (e : Event) (s t : ShutdownHandler) (h : interfere draining e s = some t) :
    Interferes draining s t := by
  cases e with
  | signal =>
    cases h
    exact ⟨fun _ => rfl, id, rfl, Nat.le_refl _, fun _ => Nat.le_refl _⟩
  | increment =>
    unfold interfere at h
    simp only at h
    by_cases hd : draining = true
    · rw [if_pos hd] at h
      cases h
    · rw [if_neg hd] at h
      cases h
      exact ⟨id, id, rfl, Nat.le_refl _, fun hd' => absurd hd' hd⟩
  | decrement =>
    unfold interfere at h
    simp only at h
    by_cases hd : (draining && s.nBatchesPendingCompletion == 0) = true
    · rw [if_pos hd] at h
      cases h
    · rw [if_neg hd] at h
      cases h
      refine ⟨id, id, rfl, Nat.le_refl _, fun hd' => ?_⟩
      have hpos : s.nBatchesPendingCompletion ≠ 0 := by
        intro hzero
        rw [hd', hzero] at hd
        exact hd rfl
      show (s.nBatchesPendingCompletion + (usizeValues - 1)) % usizeValues ≤ s.nBatchesPendingCompletion
      unfold usizeValues UInt64.size
      omega
  | cancelNetwork =>
    cases h
    exact ⟨id, fun _ => rfl, rfl, Nat.le_refl _, fun _ => Nat.le_refl _⟩
  | tick duration =>
    cases h
    exact ⟨id, id, rfl, Nat.le_add_right _ _, fun _ => Nat.le_refl _⟩

/-! ## The waiting task -/

/-- The last count that was read is zero. -/
def ReadZero (s : ShutdownHandler) : Prop :=
  ∃ before time, s.reads = before ++ [(time, 0)] ∧ ∀ r ∈ before, 0 < r.2

/-- A step that cancels the network only during a shutdown, after it has been read that no batch is pending. -/
def CancelsDone (draining : Bool) (s t : ShutdownHandler) : Prop :=
  s.networkCt = false → t.networkCt = true →
    s.ct = true ∧ ReadZero s ∧ (draining = true → s.nBatchesPendingCompletion = 0)

/-- What holds when the waiting returns, where the shutdown had begun before or not, and its time was up then. -/
inductive Returned (draining : Bool) (shutdown : Prop) (deadline : Nat) :
    Option (Except ShutdownError Unit) → ShutdownHandler → Prop
  | ok {s : ShutdownHandler} (hread : ReadZero s) (hnetwork : shutdown → s.networkCt = true)
      (hbatches : draining = true → s.nBatchesPendingCompletion = 0) :
      Returned draining shutdown deadline (some (.ok ())) s
  | timeout {s : ShutdownHandler} {before : List (Nat × Nat)} {time batches : Nat}
      (hreads : s.reads = before ++ [(time, batches)]) (hbefore : before ≠ []) (hpending : ∀ r ∈ before, 0 < r.2)
      (htime : deadline ≤ time) : Returned draining shutdown deadline (some (.error (.timeout batches))) s

theorem Returned.interferes {deadline : Nat} {a : Option (Except ShutdownError Unit)}
    (h : Returned draining shutdown deadline a s) (hR : Interferes draining s t) :
    Returned draining shutdown deadline a t := by
  cases h with
  | ok hread hnetwork hbatches =>
    refine Returned.ok ?_ (fun h => hR.networkCt (hnetwork h)) fun hd => ?_
    · unfold ReadZero
      rw [hR.reads]
      exact hread
    · have hle := hR.batches hd
      rw [hbatches hd] at hle
      exact Nat.le_zero.mp hle
  | timeout hreads hbefore hpending htime => exact Returned.timeout (hR.reads.trans hreads) hbefore hpending htime

/-- The waiting goes on: the counts that were read are not zero, and the rounds have taken their time. -/
structure Waits (shutdown : Prop) (checkInterval start rounds : Nat) (s : ShutdownHandler) : Prop where
  ct : shutdown → s.ct = true
  pending : ∀ r ∈ s.reads, 0 < r.2
  now : start + rounds * checkInterval ≤ s.now

theorem Waits.interferes {checkInterval start rounds : Nat} (h : Waits shutdown checkInterval start rounds s)
    (hR : Interferes draining s t) : Waits shutdown checkInterval start rounds t := by
  refine ⟨fun hs => hR.ct (h.ct hs), ?_, Nat.le_trans h.now hR.now⟩
  rw [hR.reads]
  exact h.pending

theorem cancelsDone_of_networkCt (h : t.networkCt = s.networkCt) : CancelsDone draining s t := by
  intro hs ht
  rw [h, hs] at ht
  cases ht

section Rules

variable {α : Type} {Q : α → ShutdownHandler → Prop}

abbrev WaitSafe (draining : Bool) (Q : α → ShutdownHandler → Prop) : Code α → ShutdownHandler → Prop :=
  Safe perform (Interferes draining) (CancelsDone draining) Q

theorem load_rule {f : Nat → Code α}
    (h : ∀ t, Interferes draining s t → WaitSafe draining Q (f t.nBatchesPendingCompletion)
      { t with reads := t.reads ++ [(t.now, t.nBatchesPendingCompletion)] }) :
    WaitSafe draining Q (load >>= f) s := by
  refine Safe.call fun t ht choice a u hperform => ?_
  cases hperform
  exact ⟨cancelsDone_of_networkCt rfl, h t ht⟩

theorem now_rule {f : Nat → Code α} (h : ∀ t, Interferes draining s t → WaitSafe draining Q (f t.now) t) :
    WaitSafe draining Q (now >>= f) s := by
  refine Safe.call fun t ht choice a u hperform => ?_
  cases hperform
  exact ⟨cancelsDone_of_networkCt rfl, h t ht⟩

theorem isCancelled_rule {f : Bool → Code α} (h : ∀ t, Interferes draining s t → WaitSafe draining Q (f t.ct) t) :
    WaitSafe draining Q (isCancelled >>= f) s := by
  refine Safe.call fun t ht choice a u hperform => ?_
  cases hperform
  exact ⟨cancelsDone_of_networkCt rfl, h t ht⟩

/-- A sleep takes its time. -/
theorem sleep_rule {duration : Nat} {p : Code α}
    (h : ∀ t, Interferes draining s t → s.now + duration ≤ t.now → WaitSafe draining Q p t) :
    WaitSafe draining Q (sleep duration >>= fun _ => p) s := by
  refine now_rule (f := fun time => wake (time + duration) >>= fun _ => p) fun t ht => ?_
  refine Safe.call fun u hu choice a v hperform => ?_
  have hcases : perform (Op.wake (t.now + duration)) choice u =
      if t.now + duration ≤ u.now then some ((), u) else none := rfl
  rw [hcases] at hperform
  by_cases hwake : t.now + duration ≤ u.now
  · rw [if_pos hwake] at hperform
    cases hperform
    have hnow := ht.now
    exact ⟨cancelsDone_of_networkCt rfl, h u (ht.trans s t u hu) (by omega)⟩
  · rw [if_neg hwake] at hperform
    cases hperform

end Rules

variable {checkInterval timeout start deadline : Nat}

/-- One round: it returns, or it takes as long as the interval and goes on before the time is up. -/
theorem waitRound_safe {again : Code (Option (Except ShutdownError Unit))} {rounds : Nat}
    (hdeadline : deadline ≤ start + timeout) (hs : Waits shutdown checkInterval start rounds s)
    (hagain : ∀ t, rounds * checkInterval < timeout → Waits shutdown checkInterval start (rounds + 1) t →
      WaitSafe draining (Returned draining shutdown deadline) again t) :
    WaitSafe draining (Returned draining shutdown deadline) (waitRound checkInterval timeout start again) s := by
  refine load_rule fun t ht => ?_
  have hwaits := hs.interferes ht
  by_cases hpos : 0 < t.nBatchesPendingCompletion
  · rw [if_pos hpos]
    have hread : Waits shutdown checkInterval start rounds
        { t with reads := t.reads ++ [(t.now, t.nBatchesPendingCompletion)] } := by
      refine ⟨hwaits.ct, fun r hr => ?_, hwaits.now⟩
      rcases List.mem_append.mp hr with hr | hr
      · exact hwaits.pending r hr
      · rw [List.mem_singleton.mp hr]
        exact hpos
    refine now_rule fun u hu => ?_
    have hwaits' := hread.interferes hu
    by_cases htime : timeout ≤ u.now - start
    · rw [if_pos htime]
      refine load_rule fun v hv => Safe.pure fun w hw => ?_
      refine Returned.interferes (Returned.timeout rfl ?_ (hwaits'.interferes hv).pending ?_) hw
      · rw [hv.reads, hu.reads]
        exact List.append_ne_nil_of_right_ne_nil _ (List.cons_ne_nil _ _)
      · have hstart := hwaits'.now
        have hnow := hv.now
        omega
    · rw [if_neg htime]
      refine sleep_rule fun v hv hsleep => hagain v ?_ ?_
      · have hnow := hwaits'.now
        omega
      · have hnow := hwaits'.now
        refine ⟨(hwaits'.interferes hv).ct, (hwaits'.interferes hv).pending, ?_⟩
        rw [Nat.succ_mul]
        omega
  · rw [if_neg hpos]
    have hzero : t.nBatchesPendingCompletion = 0 := Nat.eq_zero_of_not_pos hpos
    have hread : ReadZero { t with reads := t.reads ++ [(t.now, t.nBatchesPendingCompletion)] } := by
      refine ⟨t.reads, t.now, ?_, hwaits.pending⟩
      rw [hzero]
    have hreturn : ∀ u, Interferes draining { t with reads := t.reads ++ [(t.now, t.nBatchesPendingCompletion)] } u →
        ReadZero u ∧ (draining = true → u.nBatchesPendingCompletion = 0) := by
      intro u hu
      refine ⟨?_, fun hd => ?_⟩
      · unfold ReadZero
        rw [hu.reads]
        exact hread
      · have hle : u.nBatchesPendingCompletion ≤ t.nBatchesPendingCompletion := hu.batches hd
        omega
    refine isCancelled_rule fun u hu => ?_
    by_cases hct : u.ct = true
    · rw [if_pos hct]
      refine Safe.call fun v hv choice a w hperform => ?_
      cases hperform
      obtain ⟨hread', hbatches⟩ := hreturn v (hu.trans _ _ _ hv)
      refine ⟨fun _ _ => ⟨hv.ct hct, hread', hbatches⟩, Safe.pure fun w hw => ?_⟩
      have hreturned : Returned draining shutdown deadline (some (.ok ())) { v with networkCt := true } :=
        Returned.ok hread' (fun _ => rfl) hbatches
      exact hreturned.interferes hw
    · rw [if_neg hct]
      obtain ⟨hread', hbatches⟩ := hreturn u hu
      refine Safe.pure fun w hw => Returned.interferes (Returned.ok hread' (fun hshutdown => ?_) hbatches) hw
      exact absurd (hu.ct (hwaits.ct hshutdown)) hct

/-- The loop, in the rounds that are left of those that the timeout has room for. -/
theorem waitLoop_safe {room : Nat} (htimeout : timeout = room * checkInterval) (hdeadline : deadline ≤ start + timeout)
    (left : Nat) {rounds : Nat} (hrounds : rounds + left = room) (hs : Waits shutdown checkInterval start rounds s) :
    WaitSafe draining (Returned draining shutdown deadline) (waitLoop checkInterval timeout start (left + 1)) s := by
  induction left generalizing rounds s with
  | zero =>
    refine waitRound_safe hdeadline hs fun t hlt _ => ?_
    rw [htimeout, ← hrounds] at hlt
    exact absurd hlt (Nat.lt_irrefl _)
  | succ left ih => exact waitRound_safe hdeadline hs fun t _ ht => ih (by omega) ht

theorem waitForPendingBatchesCompletion_safe (secs : Nat) (hreads : s.reads = []) :
    WaitSafe draining (Returned draining (s.ct = true) (s.now + fromSecs secs)) (waitForPendingBatchesCompletion secs)
      s := by
  refine now_rule fun t ht => ?_
  have hnow := ht.now
  have hroom : fromSecs secs = (10 * secs) * fromMillis 100 := by
    unfold fromSecs fromMillis
    omega
  have hwaits : Waits (s.ct = true) (fromMillis 100) t.now 0 t := by
    refine ⟨ht.ct, ?_, ?_⟩
    · rw [ht.reads, hreads]
      exact fun r hr => by cases hr
    · rw [Nat.zero_mul]
      exact Nat.le_refl _
  exact waitLoop_safe hroom (by omega) (10 * secs) (Nat.zero_add _) hwaits

/-! ## The number of operations -/

theorem waitRound_within {again : Code (Option (Except ShutdownError Unit))} {n : Nat} (h : again.Within n) :
    (waitRound checkInterval timeout start again).Within (n + 4) := by
  refine Prog.Within.call fun (pending : Nat) => ?_
  by_cases hpos : 0 < pending
  · rw [if_pos hpos]
    refine Prog.Within.call fun (time : Nat) => ?_
    by_cases htime : timeout ≤ time - start
    · rw [if_pos htime]
      exact Prog.Within.call fun batches => trivial
    · rw [if_neg htime]
      exact Prog.Within.call fun time => Prog.Within.call fun _ => h
  · rw [if_neg hpos]
    refine Prog.Within.call fun (ct : Bool) => ?_
    cases ct with
    | true => exact Prog.Within.call fun _ => trivial
    | false => trivial

theorem waitLoop_within (rounds : Nat) : (waitLoop checkInterval timeout start rounds).Within (4 * rounds) := by
  induction rounds with
  | zero => trivial
  | succ rounds ih => exact waitRound_within ih

theorem enabled (o : Op) (s : ShutdownHandler) : ∃ event t choice r, interfere draining event s = some t ∧
    perform o choice t = some r := by
  cases o with
  | wake deadline =>
    refine ⟨.tick deadline, { s with now := s.now + deadline }, (), ((), { s with now := s.now + deadline }), rfl, ?_⟩
    exact if_pos (Nat.le_add_left _ _)
  | load => exact ⟨.tick 0, _, (), _, rfl, rfl⟩
  | now => exact ⟨.tick 0, _, (), _, rfl, rfl⟩
  | isCancelled => exact ⟨.tick 0, _, (), _, rfl, rfl⟩
  | cancelNetwork => exact ⟨.tick 0, _, (), _, rfl, rfl⟩

/-- **Pending batches are awaited.** In every run, with batches that begin and complete and a shutdown that begins at
any time, the waiting makes a bounded number of operations and can always be brought to its return. It returns `Ok` only
after it has read that no batch is pending, and the error only after it has read that some are, at a time when the
timeout had passed, with the count that it read last. It cancels the network only during a shutdown, after it has read
that no batch is pending, and always when the shutdown had begun before; when no batch begins any more none is pending
then. -/
theorem pending_batches_awaited (hreads : s.reads = []) (secs : Nat) {moves : List (Move Unit Event)}
    {c : Code (Option (Except ShutdownError Unit)) × ShutdownHandler}
    (hrun : Transition.run (step draining) (waitForPendingBatchesCompletion secs, s) moves = some c) :
    moves.countP Move.isOwn ≤ 40 * secs + 5 ∧
    (∃ moves' a t, Transition.run (step draining) c moves' = some (done a, t)) ∧
    (∀ a, c.1 = done a → Returned draining (s.ct = true) (s.now + fromSecs secs) a c.2) ∧
    ∀ choice d, step draining c (.own choice) = some d → CancelsDone draining c.2 d.2 := by
  have hsafe : WaitSafe draining (Returned draining (s.ct = true) (s.now + fromSecs secs))
      (waitForPendingBatchesCompletion secs) s := waitForPendingBatchesCompletion_safe secs hreads
  obtain ⟨hrest, -⟩ := Safe.run Interferes.refl Interferes.trans interfere_interferes hsafe hrun
  obtain ⟨p, t⟩ := c
  refine ⟨?_, ?_, ?_, ?_⟩
  · have hwithin : (waitForPendingBatchesCompletion secs).Within (4 * (10 * secs + 1) + 1) :=
      Prog.Within.call fun start => waitLoop_within (10 * secs + 1)
    have hle := Prog.Within.run hwithin hrun
    omega
  · exact Prog.exists_return enabled p t
  · rintro a rfl
    exact Safe.returns Interferes.refl hrest
  · intro choice d hstep
    cases p with
    | done a => cases hstep
    | act o k =>
      obtain ⟨r, hr, rfl⟩ := Option.map_eq_some_iff.mp hstep
      exact (hrest t (Interferes.refl t) choice r.1 r.2 hr).1

/-- A shutdown has begun while a batch is pending. -/
def lastBatch : ShutdownHandler := ⟨true, false, 1, 1, []⟩

/-- The batch completes during the first sleep. -/
def lastBatchMoves : List (Move Unit Event) :=
  [.own (), .own (), .own (), .own (), .env .decrement, .env (.tick (fromMillis 101)), .own (), .own (), .own (),
    .own ()]

theorem pending_batches_awaited_lastBatch : ∃ c, Transition.run (step true) (waitForPendingBatchesCompletion 1,
    lastBatch) lastBatchMoves = some c ∧ c.1 = done (some (.ok ())) ∧ c.2.networkCt = true ∧
      c.2.nBatchesPendingCompletion = 0 := by
  obtain ⟨c, hrun, hresult⟩ := Option.bind_eq_some_iff.mp (show (Transition.run (step true)
    (waitForPendingBatchesCompletion 1, lastBatch) lastBatchMoves).bind (fun c => c.1.result?) =
      some (some (.ok ())) from rfl)
  have hdone := Prog.result?_eq_some hresult
  obtain ⟨-, -, hreturned, -⟩ := pending_batches_awaited rfl 1 hrun
  cases hreturned _ hdone with
  | ok hread hnetwork hbatches => exact ⟨c, hrun, hdone, hnetwork rfl, hbatches rfl⟩

end AmpcCommon.Shutdown
