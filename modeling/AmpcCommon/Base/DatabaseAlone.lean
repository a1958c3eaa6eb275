import AmpcCommon.Base.DatabaseRules

/-!
# A client on its own

A client that nobody else uses the database with. While it runs one transaction, what is committed is this transaction
as a whole, or nothing (`Alone.replay_cases`), whatever requests fail and wherever its program is cut off. The rules of
the requests of a transaction say what it has made of the contents so far (`View.Writing`).
-/

namespace Database

open RelyGuarantee

variable {C ρ α β : Type}

/-- Nobody else makes requests. -/
def nobody (ρ : Type) : Usage ρ := ⟨Empty, Empty.elim⟩

/-- A program runs on its own, as far as `q`. -/
def Server.Runs (server : Server C ρ) (c : C) [DecidableEq C] (p q : Program ρ α) (s t : server.State) : Prop :=
  ∃ moves : List (Move server.Choice (Event server (nobody ρ))),
    Transition.run (RelyGuarantee.step (server.perform c) (server.interfere (nobody ρ) c)) (p, s) moves = some (q, t)

/-- No transaction is left whose commit was not answered. -/
def View.Settled (v : View C ρ) : Prop := v.late = []

/-- A client without a transaction, that has seen all that is committed. -/
structure View.Ready (v : View C ρ) (c : C) : Prop where
  idle : v.tx c = .idle
  seen : v.log.length ≤ v.seen c

/-- Nothing has been committed since the log was `start`, and nothing can be. -/
structure Still (start : List (Commit C ρ)) (v : View C ρ) : Prop where
  labelled : v.Labelled
  log : v.log = start
  settled : v.Settled

/-- Nothing has been committed since the log was `start`, or only a transaction with the label, which makes the contents
into `m`. -/
structure Alone (start : List (Commit C ρ)) (label : C × Nat) (m : Contents ρ) (v : View C ρ) : Prop where
  labelled : v.Labelled
  log : start <+: v.log
  seen : start.length ≤ v.seen label.1
  own : ∀ e ∈ v.log ++ v.late, e ∈ start ∨ e.label = label ∧ apply (replay start) e.changes = m

/-- The transaction with the label has made the contents into `m`, unless its connection is lost. -/
def View.Writing (v : View C ρ) (start : List (Commit C ρ)) (label : C × Nat) (m : Contents ρ) : Prop :=
  v.tx label.1 = .closed ∨
    ∃ changes, v.tx label.1 = .running label.2 changes ∧ apply (replay start) changes = m

/-! ## Statements -/

section Statements

variable {accepts : ρ → Bool} {owner : Int → Option (C × Nat)} {m : Contents ρ} {before changes : List (Change ρ)}

/-- What an update makes of the contents that it reads, when it leaves no choice. -/
theorem Writes.update_apply {versions : ρ → List ρ} {f : ρ → ρ}
    (h : Writes accepts owner m m before (.update versions) changes)
    (hversion : ∀ k row row', m k = some row → row' ∈ versions row → row' = f row)
    (hsame : ∀ k row, m k = some row → versions row = [] → f row = row) :
    apply m changes = fun k => (m k).map f := by
  funext k
  cases h with
  | update hnodup hchange hall =>
    rw [apply_eq]
    by_cases hk : k ∈ changes.map Change.key
    · obtain ⟨change, hmem, rfl⟩ := List.mem_map.mp hk
      obtain ⟨row, row', hrow, hrow', hchanged⟩ := hchange change hmem
      rw [versions_of_nodup hnodup hmem, hchanged, hrow, hversion _ _ _ hrow hrow']
      rfl
    · rw [versions_eq_nil_iff.mpr hk]
      cases hrow : m k with
      | none => rfl
      | some row =>
        have hnil : versions row = [] := by
          by_contra hne
          exact hk (hall k row row hrow hrow hne hne)
        show some row = some (f row)
        rw [hsame k row hrow hnil]

/-- What a deletion makes of the contents that it reads. -/
theorem Writes.delete_apply {selects : ρ → Bool} (h : Writes accepts owner m m before (.delete selects) changes) :
    apply m changes = fun k => (m k).filter fun row => ! selects row := by
  funext k
  cases h with
  | delete hnodup hchange hall =>
    rw [apply_eq]
    by_cases hk : k ∈ changes.map Change.key
    · obtain ⟨change, hmem, rfl⟩ := List.mem_map.mp hk
      obtain ⟨row, hrow, hselects, hchanged⟩ := hchange change hmem
      rw [versions_of_nodup hnodup hmem, hchanged, hrow, Option.filter_some, hselects]
      rfl
    · rw [versions_eq_nil_iff.mpr hk]
      cases hrow : m k with
      | none => rfl
      | some row =>
        have hnot : selects row = false := by
          by_contra htrue
          rw [Bool.not_eq_false] at htrue
          exact hk (hall k row row hrow hrow htrue htrue)
        rw [Option.filter_some, hnot]
        rfl

theorem replay_append (xs ys : List (Commit C ρ)) :
    replay (xs ++ ys) = apply (replay xs) (ys.flatMap Commit.changes) := by
  unfold replay
  rw [List.flatMap_append, apply_append]

theorem replay_singleton (xs : List (Commit C ρ)) (e : Commit C ρ) :
    replay (xs ++ [e]) = apply (replay xs) e.changes := by
  rw [replay_append, List.flatMap_singleton]

end Statements

/-! ## All or nothing -/

variable {start : List (Commit C ρ)} {label : C × Nat} {m : Contents ρ} {v w : View C ρ}

theorem Still.alone (h : Still start v) (hseen : start.length ≤ v.seen label.1) : Alone start label m v := by
  refine ⟨h.labelled, ⟨[], ?_⟩, hseen, fun e he => Or.inl ?_⟩
  · rw [List.append_nil, h.log]
  · rwa [h.log, show v.late = [] from h.settled, List.append_nil] at he

/-- One transaction at most has been committed. -/
theorem Alone.log_cases (h : Alone start label m v) : v.log = start ∨
    ∃ e, e.label = label ∧ apply (replay start) e.changes = m ∧ v.log = start ++ [e] := by
  obtain ⟨more, hmore⟩ := h.log
  have hnodup := h.labelled.nodup
  rw [List.map_append, List.nodup_append, ← hmore, List.map_append, List.nodup_append] at hnodup
  obtain ⟨⟨-, hmoreNodup, hdisjoint⟩, -⟩ := hnodup
  have hown : ∀ e ∈ more, e.label = label ∧ apply (replay start) e.changes = m := by
    intro e he
    have hmem : e ∈ v.log ++ v.late := by
      rw [← hmore]
      exact List.mem_append_left _ (List.mem_append_right _ he)
    rcases h.own e hmem with hold | hown
    · exact absurd rfl (hdisjoint _ (List.mem_map_of_mem hold) _ (List.mem_map_of_mem he))
    · exact hown
  cases more with
  | nil =>
    rw [List.append_nil] at hmore
    exact Or.inl hmore.symm
  | cons e rest =>
    obtain ⟨hlabel, hm⟩ := hown e List.mem_cons_self
    refine Or.inr ⟨e, hlabel, hm, ?_⟩
    cases rest with
    | nil => exact hmore.symm
    | cons e' rest =>
      -- two transactions would have one label
      rw [List.map_cons, List.nodup_cons, List.map_cons, List.mem_cons] at hmoreNodup
      have hlabel' := (hown e' (List.mem_cons_of_mem _ List.mem_cons_self)).1
      exact absurd (Or.inl (hlabel.trans hlabel'.symm)) hmoreNodup.1

/-- **All or nothing.** The contents are as before, or as the transaction has made them. -/
theorem Alone.replay_cases (h : Alone start label m v) : replay v.log = replay start ∨ replay v.log = m := by
  rcases h.log_cases with hlog | ⟨e, -, hm, hlog⟩
  · rw [hlog]
    exact Or.inl rfl
  · rw [hlog, replay_singleton]
    exact Or.inr hm

/-- After the commit there is nothing left. -/
theorem Alone.committed (h : Alone start label m v) (hlog : start.length < v.log.length) :
    replay v.log = m ∧ v.Settled := by
  rcases h.log_cases with hsame | ⟨e, hlabel, hm, hmore⟩
  · rw [hsame] at hlog
    exact absurd hlog (Nat.lt_irrefl _)
  · refine ⟨by rw [hmore, replay_singleton, hm], List.eq_nil_iff_forall_not_mem.mpr fun e' he' => ?_⟩
    have hnodup := h.labelled.nodup
    rw [List.map_append, List.nodup_append] at hnodup
    have hdisjoint := hnodup.2.2
    rcases h.own e' (List.mem_append_right _ he') with hold | ⟨hlabel', -⟩
    · exact hdisjoint _ (List.mem_map_of_mem (h.log.subset hold)) _ (List.mem_map_of_mem he') rfl
    · have he : e ∈ v.log := by
        rw [hmore]
        exact List.mem_append_right _ List.mem_cons_self
      exact hdisjoint _ (List.mem_map_of_mem he) _ (List.mem_map_of_mem he') (hlabel.trans hlabel'.symm)

/-- While the transaction runs, nothing has been committed. -/
theorem Alone.log_eq (h : Alone start label m v) {changes : List (Change ρ)}
    (htx : v.tx label.1 = .running label.2 changes) : v.log = start := by
  rcases h.log_cases with hlog | ⟨e, hlabel, -, hlog⟩
  · exact hlog
  · refine absurd hlabel ((h.labelled.running _ _ _ htx).2 e ?_)
    rw [hlog]
    exact List.mem_append_left _ (List.mem_append_right _ List.mem_cons_self)

/-- The transaction reads what it has written. -/
theorem Alone.contents_eq (h : Alone start label m v) {changes : List (Change ρ)}
    (htx : v.tx label.1 = .running label.2 changes) {n : Nat} (hsnapshot : v.Snapshot label.1 n) :
    v.contents label.1 n = apply (replay start) changes := by
  have hlog := h.log_eq htx
  have hn : start.length ≤ n := Nat.le_trans h.seen hsnapshot.1
  unfold View.contents
  rw [htx, hlog, List.take_of_length_le hn]
  rfl

theorem View.Writing.opened {m' : Contents ρ} (h : v.Writing start label m') : v.Open label.1 := by
  rcases h with hclosed | ⟨changes, hrunning, -⟩
  · exact Or.inl hclosed
  · exact Or.inr ⟨_, _, hrunning⟩

theorem View.Writing.extends {m' : Contents ρ} (h : v.Writing start label m') (hextends : v.Extends label.1 w) :
    w.Writing start label m' := by
  rcases hextends.tx with htx | ⟨-, hclosed⟩
  · unfold View.Writing
    rwa [htx]
  · exact Or.inl hclosed

/-! ## Steps -/

variable [DecidableEq C] {accepts : ρ → Bool} {c : C} {n : Nat}

theorem Still.internal (h : Still start v) (hstep : Internal v w) : Still start w := by
  have hlabelled := h.labelled.internal hstep
  have hlate : ∀ {before after : List (Commit C ρ)} {e : Commit C ρ}, v.late ≠ before ++ e :: after := by
    intro before after e heq
    rw [show v.late = [] from h.settled] at heq
    exact List.append_ne_nil_of_right_ne_nil _ (List.cons_ne_nil _ _) heq.symm
  cases hstep with
  | settle heq => exact absurd heq hlate
  | drop heq => exact absurd heq hlate
  | close => exact ⟨hlabelled, h.log, h.settled⟩
  | allot => exact ⟨hlabelled, h.log, h.settled⟩

theorem Alone.internal (h : Alone start label m v) (hstep : Internal v w) : Alone start label m w := by
  have hlabelled := h.labelled.internal hstep
  have hlonger := h.log.trans hstep.log_longer
  cases hstep with
  | @settle before e after hlate =>
    refine ⟨hlabelled, hlonger, h.seen, fun e' he' => h.own e' ?_⟩
    rw [hlate]
    simp only [List.mem_append, List.mem_cons, List.not_mem_nil, or_false] at he' ⊢
    tauto
  | @drop before e after hlate =>
    refine ⟨hlabelled, hlonger, h.seen, fun e' he' => h.own e' ?_⟩
    rw [hlate]
    simp only [List.mem_append, List.mem_cons] at he' ⊢
    tauto
  | close => exact ⟨hlabelled, hlonger, h.seen, h.own⟩
  | allot => exact ⟨hlabelled, hlonger, h.seen, h.own⟩

theorem nobody_still (start : List (Commit C ρ)) : (nobody ρ).Invariant accepts (Still start) :=
  ⟨fun _ _ query => query.elim, fun _ _ hinternal h => h.internal hinternal⟩

theorem nobody_alone (start : List (Commit C ρ)) (label : C × Nat) (m : Contents ρ) :
    (nobody ρ).Invariant accepts (Alone start label m) :=
  ⟨fun _ _ query => query.elim, fun _ _ hinternal h => h.internal hinternal⟩

/-- A request of the client itself. -/
theorem Alone.step (h : Alone start (c, n) m v) {r : Request ρ} {answer : Answer ρ}
    (hallowed : Allowed accepts c v r answer w)
    (hown : ∀ e ∈ w.log ++ w.late, e ∈ v.log ++ v.late ∨ e.label = (c, n) ∧ apply (replay start) e.changes = m) :
    Alone start (c, n) m w := by
  have hlonger := h.log.trans hallowed.log_longer
  refine ⟨h.labelled.step hallowed, hlonger, ?_, fun e he => ?_⟩
  · show start.length ≤ w.seen c
    rw [hallowed.seen]
    exact hlonger.length_le
  · rcases hown e he with hold | hnew
    · exact h.own e hold
    · exact Or.inr hnew

/-- A request that commits nothing. -/
theorem Alone.step_nothing (h : Alone start (c, n) m v) {r : Request ρ} {answer : Answer ρ}
    (hallowed : Allowed accepts c v r answer w) (hlog : w.log = v.log) (hlate : w.late = v.late) :
    Alone start (c, n) m w := by
  refine h.step hallowed fun e he => Or.inl ?_
  rwa [hlog, hlate] at he

/-! ## The rules of a transaction -/

section Rules

variable {server : Server C ρ} {f : Answer ρ → Program ρ β} {Q : β → server.State → Prop} {s : server.State}

/-- What the client may do, and what it can rely on. -/
abbrev SafeAlone (server : Server C ρ) (start : List (Commit C ρ)) (c : C) (n : Nat) (m : Contents ρ)
    (Q : β → server.State → Prop) (p : Program ρ β) (s : server.State) : Prop :=
  Safe (server.perform c) (Others c server (Alone start (c, n) m)) (Does server (Alone start (c, n) m) fun _ => True)
    Q p s

omit [DecidableEq C] in
/-- What the client does keeps the invariant. -/
theorem Alone.does {t : server.State} (h : Alone start (c, n) m (server.view t))
    (hlog : (server.view s).log <+: (server.view t).log) :
    Does server (Alone start (c, n) m) (fun _ => True) s t :=
  fun _ => ⟨h, hlog, fun _ _ => Or.inr trivial⟩

theorem begin_alone (hserver : server.Documented accepts) (h : Alone start (c, n) m (server.view s))
    (hcount : (server.view s).count c = n)
    (hok : ∀ result t, Alone start (c, n) m (server.view t) →
      (server.view t).Writing start (c, n) (replay start) → SafeAlone server start c n m Q (f (.ok result)) t)
    (herror : ∀ e t, Alone start (c, n) m (server.view t) → SafeAlone server start c n m Q (f (.error e)) t) :
    SafeAlone server start c n m Q (request .begin >>= f) s := by
  refine safe_request hserver fun s' hs' answer t hallowed => ?_
  obtain ⟨h', hextends⟩ := hs' h
  obtain ⟨hlog, hlate, ⟨result, rfl, htx⟩ | ⟨e, rfl, -⟩⟩ := hallowed.begin_spec
  · have hbegun := h'.step_nothing hallowed hlog hlate
    rw [hextends.count, hcount] at htx
    exact ⟨hbegun.does hallowed.log_longer, hok result t hbegun (Or.inr ⟨[], htx, rfl⟩)⟩
  · have hfailed := h'.step_nothing hallowed hlog hlate
    exact ⟨hfailed.does hallowed.log_longer, herror e t hfailed⟩

/-- The rule of a statement that makes the contents into others. -/
theorem statement_alone (hserver : server.Documented accepts) {m₁ m₂ : Contents ρ} {statement : Statement ρ}
    {parameters : Nat} (h : Alone start (c, n) m (server.view s)) (hwriting : (server.view s).Writing start (c, n) m₁)
    (hstatement : ∀ selects order limit, statement ≠ .select selects order limit)
    (heffect : ∀ owner before changes, Writes accepts (owner : Int → Option (C × Nat)) m₁ m₁ before statement changes →
      apply m₁ changes = m₂)
    (hok : ∀ result t, Alone start (c, n) m (server.view t) → (server.view t).Writing start (c, n) m₂ →
      SafeAlone server start c n m Q (f (.ok result)) t)
    (herror : ∀ e t, Alone start (c, n) m (server.view t) → SafeAlone server start c n m Q (f (.error e)) t) :
    SafeAlone server start c n m Q (request (.execute statement parameters) >>= f) s := by
  refine safe_request hserver fun s' hs' answer t hallowed => ?_
  obtain ⟨h', hextends⟩ := hs' h
  have hwriting' := hwriting.extends hextends
  obtain ⟨hlog, hlate, ⟨n', number, before, changes, hrunning, -, hsnapshot, hwrites, rfl, htx⟩ | ⟨e, rfl⟩⟩ :=
    hallowed.pending_spec hwriting'.opened hstatement
  · have hwritten := h'.step_nothing hallowed hlog hlate
    refine ⟨hwritten.does hallowed.log_longer, hok _ t hwritten (Or.inr ?_)⟩
    rcases hwriting' with hclosed | ⟨before', hrunning', hm₁⟩
    · rw [hrunning] at hclosed
      cases hclosed
    · rw [hrunning] at hrunning'
      cases hrunning'
      have hnow : ∀ {k : Nat}, (server.view s').Snapshot c k → (server.view s').contents c k = m₁ :=
        fun hk => (h'.contents_eq hrunning hk).trans hm₁
      have hlast : (server.view s').Snapshot c (server.view s').log.length :=
        ⟨h'.labelled.seen_le c, Nat.le_refl _⟩
      rw [hnow hsnapshot, hnow hlast] at hwrites
      refine ⟨before ++ changes, htx, ?_⟩
      rw [apply_append, hm₁]
      exact heffect _ _ _ hwrites
  · have hfailed := h'.step_nothing hallowed hlog hlate
    exact ⟨hfailed.does hallowed.log_longer, herror e t hfailed⟩

theorem commit_alone (hserver : server.Documented accepts) (h : Alone start (c, n) m (server.view s))
    (hwriting : (server.view s).Writing start (c, n) m)
    (hok : ∀ result t, Alone start (c, n) m (server.view t) → start.length < (server.view t).log.length →
      SafeAlone server start c n m Q (f (.ok result)) t)
    (herror : ∀ e t, Alone start (c, n) m (server.view t) → SafeAlone server start c n m Q (f (.error e)) t) :
    SafeAlone server start c n m Q (request .commit >>= f) s := by
  refine safe_request hserver fun s' hs' answer t hallowed => ?_
  obtain ⟨h', hextends⟩ := hs' h
  have hwriting' := hwriting.extends hextends
  -- what can be committed is what has been written
  have hcommits : ∀ {number : Nat} {changes : List (Change ρ)}, (server.view s').tx c = .running number changes →
      (⟨c, number, changes⟩ : Commit C ρ).label = (c, n) ∧ apply (replay start) changes = m := by
    intro number changes hrunning
    rcases hwriting' with hclosed | ⟨changes', hrunning', hm⟩
    · rw [hrunning] at hclosed
      cases hclosed
    · rw [hrunning] at hrunning'
      cases hrunning'
      exact ⟨rfl, hm⟩
  obtain ⟨-, ⟨number, changes, result, hrunning, rfl, hlog, hlate⟩ | ⟨⟨e, rfl⟩, hlog, hlate⟩⟩ :=
    hallowed.commit_spec hwriting'.opened
  · have hcommitted : Alone start (c, n) m (server.view t) := by
      refine h'.step hallowed fun e he => ?_
      rw [hlog, hlate, List.append_assoc, List.mem_append, List.mem_append, List.mem_singleton] at he
      rcases he with he | rfl | he
      · exact Or.inl (List.mem_append_left _ he)
      · exact Or.inr (hcommits hrunning)
      · exact Or.inl (List.mem_append_right _ he)
    refine ⟨hcommitted.does hallowed.log_longer, hok result t hcommitted ?_⟩
    rw [hlog, List.length_append, List.length_singleton]
    exact Nat.lt_succ_of_le h'.log.length_le
  · have hfailed : Alone start (c, n) m (server.view t) := by
      refine h'.step hallowed fun e he => ?_
      rw [hlog] at he
      rcases hlate with hlate | ⟨number, changes, hrunning, hlate⟩
      · rw [hlate] at he
        exact Or.inl he
      · rw [hlate, ← List.append_assoc, List.mem_append, List.mem_singleton] at he
        rcases he with he | rfl
        · exact Or.inl he
        · exact Or.inr (hcommits hrunning)
    exact ⟨hfailed.does hallowed.log_longer, herror e t hfailed⟩

theorem rollback_alone (hserver : server.Documented accepts) (h : Alone start (c, n) m (server.view s))
    (hany : ∀ answer t, Alone start (c, n) m (server.view t) → SafeAlone server start c n m Q (f answer) t) :
    SafeAlone server start c n m Q (request .rollback >>= f) s := by
  refine safe_request hserver fun s' hs' answer t hallowed => ?_
  obtain ⟨h', -⟩ := hs' h
  obtain ⟨hlog, hlate, -⟩ := hallowed.rollback_spec
  have hended := h'.step_nothing hallowed hlog hlate
  exact ⟨hended.does hallowed.log_longer, hany answer t hended⟩

/-- What holds of a transaction that has run on its own, to its end or not. -/
theorem Server.Runs.alone (hserver : server.Documented accepts) {p q : Program ρ β} {t : server.State}
    (hruns : server.Runs c p q s t) (h : Alone start (c, n) m (server.view s))
    (hsafe : SafeAlone server start c n m Q p s) :
    Alone start (c, n) m (server.view t) ∧ ∀ b, q = .done b → Q b t := by
  obtain ⟨moves, hrun⟩ := hruns
  obtain ⟨hsafe', h', -⟩ := (nobody_alone start (c, n) m).run hserver h hsafe hrun
  refine ⟨h', ?_⟩
  rintro b rfl
  exact Safe.returns Others.refl hsafe'

end Rules

/-! ## The rules of a query -/

section Query

variable {server : Server C ρ} {f : Answer ρ → Program ρ β} {Q : β → server.State → Prop} {s : server.State}

/-- The client commits nothing, and relies on it that nothing is committed. -/
abbrev SafeStill (server : Server C ρ) (start : List (Commit C ρ)) (c : C) (Q : β → server.State → Prop)
    (p : Program ρ β) (s : server.State) : Prop :=
  Safe (server.perform c) (Others c server (Still start)) (Does server (Still start) fun _ => True) Q p s

omit [DecidableEq C] in
theorem View.Ready.extends (h : v.Ready c) (hv : Still start v) (hw : Still start w) (hextends : v.Extends c w) :
    w.Ready c := by
  refine ⟨hextends.idle h.idle, ?_⟩
  rw [hw.log, ← hv.log, hextends.seen]
  exact h.seen

/-- A rollback leaves no transaction. -/
theorem rollback_still (hserver : server.Documented accepts) (h : Still start (server.view s))
    (hany : ∀ answer t, Still start (server.view t) → (server.view t).Ready c →
      SafeStill server start c Q (f answer) t) : SafeStill server start c Q (request .rollback >>= f) s := by
  refine safe_request hserver fun s' hs' answer t hallowed => ?_
  obtain ⟨h', -⟩ := hs' h
  obtain ⟨hlog, hlate, hidle⟩ := hallowed.rollback_spec
  have hstill : Still start (server.view t) :=
    ⟨h'.labelled.step hallowed, hlog.trans h'.log, hlate.trans h'.settled⟩
  refine ⟨fun _ => ⟨hstill, hallowed.log_longer, fun _ _ => Or.inr trivial⟩, hany answer t hstill ⟨hidle, ?_⟩⟩
  exact Nat.le_of_eq hallowed.seen.symm

/-- A query outside of a transaction, when nothing is committed, finds all that there is. -/
theorem select_still (hserver : server.Documented accepts) {selects : ρ → Bool} {order : ρ → Int} {limit : Option Int}
    {parameters : Nat} (h : Still start (server.view s)) (hready : (server.view s).Ready c)
    (hanswer : ∀ answer t, Still start (server.view t) → (server.view t).Ready c →
      (∀ result, answer = .ok result → Reads (replay start) (.select selects order limit) result) →
      SafeStill server start c Q (f answer) t) :
    SafeStill server start c Q (request (.execute (.select selects order limit) parameters) >>= f) s := by
  refine safe_request hserver fun s' hs' answer t hallowed => ?_
  obtain ⟨h', hextends⟩ := hs' h
  have hready' := hready.extends h h' hextends
  have hlabelled := h'.labelled.step hallowed
  obtain ⟨hlog, hlate, hanswered⟩ := hallowed.select_spec
  have hstill : Still start (server.view t) := ⟨hlabelled, hlog.trans h'.log, hlate.trans h'.settled⟩
  refine ⟨fun _ => ⟨hstill, hallowed.log_longer, fun _ _ => Or.inr trivial⟩, ?_⟩
  have hseen : (server.view t).log.length ≤ (server.view t).seen c := Nat.le_of_eq hallowed.seen.symm
  rcases hanswered with ⟨n, result, hsnapshot, hreads, rfl, htx⟩ | ⟨e, rfl, htx⟩
  · refine hanswer _ t hstill ⟨htx.trans hready'.idle, hseen⟩ fun result' heq => ?_
    cases heq
    have hn : (server.view s').log.length ≤ n := Nat.le_trans hready'.seen hsnapshot.1
    have hcontents : (server.view s').contents c n = replay start := by
      unfold View.contents
      rw [hready'.idle, List.take_of_length_le hn, h'.log]
      rfl
    rwa [hcontents] at hreads
  · rw [hready'.idle] at htx
    exact hanswer _ t hstill ⟨htx, hseen⟩ fun result heq => by cases heq

/-- What holds of a program that has run on its own and commits nothing. -/
theorem Server.Runs.still (hserver : server.Documented accepts) {p q : Program ρ β} {t : server.State}
    (hruns : server.Runs c p q s t) (h : Still start (server.view s))
    (hsafe : SafeStill server start c Q p s) :
    Still start (server.view t) ∧ ∀ b, q = .done b → Q b t := by
  obtain ⟨moves, hrun⟩ := hruns
  obtain ⟨hsafe', h', -⟩ := (nobody_still start).run hserver h hsafe hrun
  refine ⟨h', ?_⟩
  rintro b rfl
  exact Safe.returns Others.refl hsafe'

end Query

end Database
