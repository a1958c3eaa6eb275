import AmpcCommon.Base.DatabaseRules

/-!
# The lives of rows

A property of all that can happen to a row, from its insertion on, holds in every state of a database when each
statement respects it (`Statement.Respects`): a row is inserted under a key that is new, and is not changed while
another transaction is unfinished that has changed it, so that a transaction commits what its statements made of the
last versions (`lives_invariant`). -/

namespace Database

variable {C ρ : Type} {H : Int → List (Option ρ) → Prop}

/-- What a statement does to a row that has the property keeps it; a row is inserted under a new key. -/
def Statement.Respects (H : Int → List (Option ρ) → Prop) (new : Int → Prop) : Statement ρ → Prop
  | insert rows => ∀ make ∈ rows, ∀ k, new k → H k [some (make k)]
  | update versions => ∀ k h row row', H k h → h.getLast?.getD none = some row → row' ∈ versions row →
      H k (h ++ [some row'])
  | delete selects => ∀ k h row, H k h → h.getLast?.getD none = some row → selects row = true → H k (h ++ [none])
  | select _ _ _ => True

/-- Every statement of the usage does. -/
def Usage.Respects (usage : Usage ρ) (H : Int → List (Option ρ) → Prop) : Prop :=
  ∀ query statement parameters, usage.request query = .execute statement parameters →
    statement.Respects H fun _ => True

theorem Statement.Respects.mono {statement : Statement ρ} {new new' : Int → Prop} (h : statement.Respects H new)
    (hnew : ∀ k, new' k → new k) : statement.Respects H new' := by
  cases statement with
  | insert rows => exact fun make hmake k hk => h make hmake k (hnew k hk)
  | update versions => exact h
  | delete selects => exact h
  | select selects order limit => trivial

/-- Every row has had a life so far, and would have had one if an unfinished transaction were committed. No two of them
change one row. -/
structure Lives (H : Int → List (Option ρ) → Prop) (v : View C ρ) : Prop where
  labelled : v.Labelled
  histories : ∀ k, H k (history k v.log)
  unfinished : ∀ label changes, v.Unfinished label changes → ∀ k, H k (history k v.log ++ versions k changes)
  apart : ∀ label changes label' changes', v.Unfinished label changes → v.Unfinished label' changes' →
    label ≠ label' → ∀ change ∈ changes, ∀ change' ∈ changes', change'.key ≠ change.key
  fresh : ∀ k, v.owner k = none → history k v.log = [] ∧
    ∀ label changes, v.Unfinished label changes → versions k changes = []

theorem Lives.initial (hnil : ∀ k, H k []) : Lives H (View.initial : View C ρ) := by
  have hnone : ∀ label changes, ¬ (View.initial : View C ρ).Unfinished label changes := by
    rintro label changes (htx | ⟨e, he, -⟩)
    · cases htx
    · cases he
  refine ⟨View.Labelled.initial, hnil, fun label changes h => absurd h (hnone label changes), ?_,
    fun k _ => ⟨rfl, fun label changes h => absurd h (hnone label changes)⟩⟩
  intro label changes label' changes' h
  exact absurd h (hnone label changes)

theorem Keeps.eq_none {owner owner' : Int → Option (C × Nat)} (h : Keeps owner owner') {k : Int}
    (hk : owner' k = none) : owner k = none := by
  cases howner : owner k with
  | none => rfl
  | some x =>
    rw [h k x howner] at hk
    cases hk

/-- A key that is written has been allotted. -/
theorem Keeps.ne_none {owner owner' : Int → Option (C × Nat)} (h : Keeps owner owner') {k : Int} {x : C × Nat}
    (hx : owner k = none → owner' k = some x) : owner' k ≠ none := by
  intro hnone
  rw [hx (h.eq_none hnone)] at hnone
  cases hnone

/-- The number of an unfinished transaction has been used, and no other transaction has its label. -/
theorem View.Labelled.unfinished {v : View C ρ} (h : v.Labelled) {label : C × Nat} {changes : List (Change ρ)}
    (hunfinished : v.Unfinished label changes) : label.2 < v.count label.1 ∧ ∀ e ∈ v.log, e.label ≠ label := by
  rcases hunfinished with htx | ⟨e, he, rfl, -⟩
  · obtain ⟨hlt, hne⟩ := h.running _ _ _ htx
    exact ⟨hlt, fun e he => hne e (List.mem_append_left _ he)⟩
  · refine ⟨h.lt e (List.mem_append_right _ he), fun e' he' heq => ?_⟩
    have hnodup := h.nodup
    rw [List.map_append, List.nodup_append] at hnodup
    exact hnodup.2.2 _ (List.mem_map_of_mem he') _ (List.mem_map_of_mem he) heq

/-- Another property that rows with the property have too, when they are not under a new key. -/
theorem Lives.mono {H' : Int → List (Option ρ) → Prop} {v : View C ρ} (h : Lives H v)
    (hmono : ∀ k life, H k life → (v.owner k = none → life = []) → H' k life) : Lives H' v := by
  refine ⟨h.labelled, fun k => hmono k _ (h.histories k) fun hk => (h.fresh k hk).1, fun label changes hl k => ?_,
    h.apart, h.fresh⟩
  refine hmono k _ (h.unfinished label changes hl k) fun hk => ?_
  obtain ⟨hnil, hversions⟩ := h.fresh k hk
  rw [hnil, hversions label changes hl]
  rfl

/-- The life of a row as a client sees it. -/
theorem Lives.seen {v : View C ρ} (h : Lives H v) (c : C) (k : Int) :
    H k (history k v.log ++ versions k (v.tx c).changes) := by
  cases htx : v.tx c with
  | running number changes => exact h.unfinished (c, number) changes (Or.inl htx) k
  | idle =>
    show H k (history k v.log ++ [])
    rw [List.append_nil]
    exact h.histories k
  | failed =>
    show H k (history k v.log ++ [])
    rw [List.append_nil]
    exact h.histories k
  | closed =>
    show H k (history k v.log ++ [])
    rw [List.append_nil]
    exact h.histories k

/-- What a client finds under a key is one of the versions. -/
theorem View.mem_of_contents {v : View C ρ} {c : C} {n : Nat} {k : Int} {row : ρ} (h : v.contents c n k = some row) :
    some row ∈ history k v.log ++ versions k (v.tx c).changes := by
  unfold View.contents at h
  rw [apply_eq] at h
  rw [List.mem_append]
  cases hlast : (versions k (v.tx c).changes).getLast? with
  | some version =>
    rw [hlast] at h
    rw [← h]
    exact Or.inr (List.mem_of_getLast? hlast)
  | none =>
    rw [hlast, Option.getD_none, replay_eq] at h
    cases hold : (history k (v.log.take n)).getLast? with
    | none =>
      rw [hold] at h
      cases h
    | some version =>
      rw [hold] at h
      rw [← h]
      exact Or.inl ((history_longer (List.take_prefix n v.log) k).subset (List.mem_of_getLast? hold))

/-! ## Steps -/

section Steps

variable {v w : View C ρ}

/-- Nothing is committed, and no unfinished transaction has changed more. -/
theorem Lives.keeps (h : Lives H v) (hw : w.Labelled) (hlog : w.log = v.log) (howner : Keeps v.owner w.owner)
    (hunfinished : ∀ label changes, w.Unfinished label changes → v.Unfinished label changes ∨ changes = []) :
    Lives H w := by
  refine ⟨hw, fun k => ?_, fun label changes hl k => ?_, fun label changes label' changes' hl hl' hne => ?_,
    fun k hk => ?_⟩
  · rw [hlog]
    exact h.histories k
  · rw [hlog]
    rcases hunfinished label changes hl with hl | rfl
    · exact h.unfinished label changes hl k
    · show H k (history k v.log ++ [])
      rw [List.append_nil]
      exact h.histories k
  · rcases hunfinished label changes hl with hl | rfl
    · rcases hunfinished label' changes' hl' with hl' | rfl
      · exact h.apart label changes label' changes' hl hl' hne
      · exact fun _ _ _ hmem => (List.not_mem_nil hmem).elim
    · exact fun _ hmem => (List.not_mem_nil hmem).elim
  · obtain ⟨hhistory, hversions⟩ := h.fresh k (howner.eq_none hk)
    rw [hlog]
    refine ⟨hhistory, fun label changes hl => ?_⟩
    rcases hunfinished label changes hl with hl | rfl
    · exact hversions label changes hl
    · rfl

/-- One unfinished transaction has the changes. -/
theorem Lives.changes (h : Lives H v) (hw : w.Labelled) (hlog : w.log = v.log) (howner : Keeps v.owner w.owner)
    (label : C × Nat) (changes : List (Change ρ))
    (hunfinished : ∀ label' changes', w.Unfinished label' changes' →
      label' ≠ label ∧ v.Unfinished label' changes' ∨ label' = label ∧ changes' = changes)
    (hlife : ∀ k, H k (history k v.log ++ versions k changes)) (hfree : v.Free label changes)
    (hallotted : ∀ change ∈ changes, w.owner change.key ≠ none) : Lives H w := by
  refine ⟨hw, fun k => ?_, fun label' changes' hl k => ?_, fun label₁ changes₁ label₂ changes₂ hl₁ hl₂ hne => ?_,
    fun k hk => ?_⟩
  · rw [hlog]
    exact h.histories k
  · rw [hlog]
    rcases hunfinished label' changes' hl with ⟨-, hl⟩ | ⟨-, rfl⟩
    · exact h.unfinished label' changes' hl k
    · exact hlife k
  · rcases hunfinished label₁ changes₁ hl₁ with ⟨hne₁, hl₁⟩ | ⟨rfl, rfl⟩
    · rcases hunfinished label₂ changes₂ hl₂ with ⟨-, hl₂⟩ | ⟨rfl, rfl⟩
      · exact h.apart label₁ changes₁ label₂ changes₂ hl₁ hl₂ hne
      · intro change hmem change' hmem'
        exact (hfree label₁ changes₁ hl₁ hne₁ change' hmem' change hmem).symm
    · rcases hunfinished label₂ changes₂ hl₂ with ⟨hne₂, hl₂⟩ | ⟨rfl, -⟩
      · exact hfree label₂ changes₂ hl₂ hne₂
      · exact absurd rfl hne
  · obtain ⟨hhistory, hversions⟩ := h.fresh k (howner.eq_none hk)
    rw [hlog]
    refine ⟨hhistory, fun label' changes' hl => ?_⟩
    rcases hunfinished label' changes' hl with ⟨-, hl⟩ | ⟨-, rfl⟩
    · exact hversions label' changes' hl
    · refine versions_eq_nil_iff.mpr fun hmem => ?_
      obtain ⟨change, hchange, rfl⟩ := List.mem_map.mp hmem
      exact hallotted change hchange hk

/-- A transaction is committed. -/
theorem Lives.commits (h : Lives H v) (hw : w.Labelled) {e : Commit C ρ} (hlog : w.log = v.log ++ [e])
    (howner : Keeps v.owner w.owner)
    (hunfinished : ∀ label changes, w.Unfinished label changes → label ≠ e.label ∧ v.Unfinished label changes)
    (hlife : ∀ k, H k (history k v.log ++ versions k e.changes)) (hfree : v.Free e.label e.changes)
    (hallotted : ∀ change ∈ e.changes, w.owner change.key ≠ none) : Lives H w := by
  have hhistory : ∀ k, history k w.log = history k v.log ++ versions k e.changes := by
    intro k
    rw [hlog, history_append, history_singleton]
  refine ⟨hw, fun k => ?_, fun label changes hl k => ?_, fun label changes label' changes' hl hl' hne => ?_,
    fun k hk => ?_⟩
  · rw [hhistory]
    exact hlife k
  · -- a key that the other transaction has changed too is not among those of the commit
    obtain ⟨hne, hl⟩ := hunfinished label changes hl
    rw [hhistory]
    by_cases hk : k ∈ changes.map Change.key
    · obtain ⟨change', hmem', rfl⟩ := List.mem_map.mp hk
      have hnone : versions change'.key e.changes = [] := by
        refine versions_eq_nil_iff.mpr fun hmem => ?_
        obtain ⟨change, hchange, hkey⟩ := List.mem_map.mp hmem
        exact hfree label changes hl hne change hchange change' hmem' hkey.symm
      rw [hnone, List.append_nil]
      exact h.unfinished label changes hl change'.key
    · rw [versions_eq_nil_iff.mpr hk, List.append_nil]
      exact hlife k
  · exact h.apart label changes label' changes' (hunfinished _ _ hl).2 (hunfinished _ _ hl').2 hne
  · obtain ⟨hnil, hversions⟩ := h.fresh k (howner.eq_none hk)
    refine ⟨?_, fun label changes hl => hversions label changes (hunfinished label changes hl).2⟩
    rw [hhistory, hnil, List.nil_append, versions_eq_nil_iff]
    intro hmem
    obtain ⟨change, hchange, rfl⟩ := List.mem_map.mp hmem
    exact hallotted change hchange hk

/-- An unfinished transaction is committed. -/
theorem Lives.finishes (h : Lives H v) (hw : w.Labelled) {e : Commit C ρ} (hlog : w.log = v.log ++ [e])
    (howner : Keeps v.owner w.owner)
    (hunfinished : ∀ label changes, w.Unfinished label changes → label ≠ e.label ∧ v.Unfinished label changes)
    (he : v.Unfinished e.label e.changes) : Lives H w := by
  refine h.commits hw hlog howner hunfinished (h.unfinished _ _ he)
    (fun label' changes' hl' hne => h.apart _ _ label' changes' he hl' hne.symm) fun change hmem hnone => ?_
  have hnil := (h.fresh change.key (howner.eq_none hnone)).2 _ _ he
  exact versions_eq_nil_iff.mp hnil (List.mem_map_of_mem hmem)

end Steps

/-! ## Statements -/

section Statements

variable {accepts : ρ → Bool} {owner : Int → Option (C × Nat)} {old now : Contents ρ} {before changes : List (Change ρ)}
  {statement : Statement ρ}

/-- A statement changes a row once at most. -/
theorem Writes.nodup (h : Writes accepts owner old now before statement changes) : (changes.map Change.key).Nodup := by
  cases h with
  | insert hlength hkeys =>
    rw [map_key_inserted hlength]
    exact hkeys.imp fun hlt => Int.ne_of_lt hlt
  | update hnodup => exact hnodup
  | delete hnodup => exact hnodup

/-- A row goes on with what a statement makes of its last version. -/
theorem Writes.life (h : Writes accepts owner old now before statement changes)
    (hstatement : statement.Respects H fun k => owner k = none) (lives : Int → List (Option ρ))
    (hlife : ∀ k, H k (lives k)) (hnow : ∀ k, now k = ((lives k).getLast?).getD none)
    (hfresh : ∀ k, owner k = none → lives k = []) (k : Int) : H k (lives k ++ versions k changes) := by
  by_cases hk : k ∈ changes.map Change.key
  · obtain ⟨change, hmem, rfl⟩ := List.mem_map.mp hk
    rw [versions_of_nodup h.nodup hmem]
    cases h with
    | @insert rows keys hlength _ hnew =>
      have hnone : owner change.key = none := by
        refine hnew _ ?_
        rw [← map_key_inserted hlength]
        exact List.mem_map_of_mem hmem
      obtain ⟨make, hmake, hrow⟩ := mem_inserted hmem
      rw [hfresh _ hnone, hrow]
      exact hstatement make hmake change.key hnone
    | update _ hchange =>
      obtain ⟨row, row', hlast, hversion, hrow'⟩ := hchange change hmem
      rw [hrow']
      exact hstatement _ _ row row' (hlife _) ((hnow _).symm.trans hlast) hversion
    | delete _ hchange =>
      obtain ⟨row, hlast, hselects, hrow⟩ := hchange change hmem
      rw [hrow]
      exact hstatement _ _ row (hlife _) ((hnow _).symm.trans hlast) hselects
  · rw [versions_eq_nil_iff.mpr hk, List.append_nil]
    exact hlife k

/-- The contents as a client sees them, with its transaction. -/
theorem View.contents_now (v : View C ρ) (c : C) (k : Int) : v.contents c v.log.length k =
    ((history k v.log ++ versions k (v.tx c).changes).getLast?).getD none := by
  unfold View.contents
  rw [List.take_length, apply_eq, replay_eq, List.getLast?_append]
  cases (versions k (v.tx c).changes).getLast? with
  | none => rfl
  | some version => rfl

end Statements

/-! ## Requests -/

section Requests

variable [DecidableEq C] {accepts : ρ → Bool} {c : C} {v w : View C ρ}

/-- The unfinished transactions after an answer. -/
theorem View.Unfinished.of_answered {log late : List (Commit C ρ)} {tx : Tx ρ} {owner : Int → Option (C × Nat)}
    {label : C × Nat} {changes : List (Change ρ)} (h : (v.answered c log late tx owner).Unfinished label changes) :
    label.1 = c ∧ tx = .running label.2 changes ∨ label.1 ≠ c ∧ v.tx label.1 = .running label.2 changes ∨
      ∃ e ∈ late, e.label = label ∧ e.changes = changes := by
  rcases h with htx | hlate
  · change Function.update v.tx c tx label.1 = _ at htx
    by_cases hc : label.1 = c
    · rw [hc, Function.update_self] at htx
      exact Or.inl ⟨hc, htx⟩
    · rw [Function.update_of_ne hc] at htx
      exact Or.inr (Or.inl ⟨hc, htx⟩)
  · exact Or.inr (Or.inr hlate)

/-- A client without a transaction has no unfinished one that is not late. -/
theorem View.Unfinished.of_ended {log late : List (Commit C ρ)} {tx : Tx ρ} {owner : Int → Option (C × Nat)}
    (htx : ∀ n changes, tx ≠ .running n changes) {label : C × Nat} {changes : List (Change ρ)}
    (h : (v.answered c log late tx owner).Unfinished label changes) :
    label.1 ≠ c ∧ v.tx label.1 = .running label.2 changes ∨ ∃ e ∈ late, e.label = label ∧ e.changes = changes := by
  rcases h.of_answered with ⟨-, hrunning⟩ | h
  · exact absurd hrunning (htx _ _)
  · exact h

/-- The transaction goes on as it is, or ends. -/
theorem Lives.goesOn (h : Lives H v) {tx : Tx ρ} {owner : Int → Option (C × Nat)} (howner : Keeps v.owner owner)
    (hw : (v.answered c v.log v.late tx owner).Labelled)
    (htx : ∀ n changes, tx = .running n changes → v.tx c = .running n changes ∨ changes = []) :
    Lives H (v.answered c v.log v.late tx owner) := by
  refine h.keeps hw rfl howner fun label changes hl => ?_
  rcases hl.of_answered with ⟨rfl, hrunning⟩ | ⟨-, hrunning⟩ | hlate
  · rcases htx _ _ hrunning with hrunning | rfl
    · exact Or.inl (Or.inl hrunning)
    · exact Or.inr rfl
  · exact Or.inl (Or.inl hrunning)
  · exact Or.inl (Or.inr hlate)

/-- A statement on its own is committed at once. -/
theorem Lives.written (h : Lives H v) {changes : List (Change ρ)} {owner : Int → Option (C × Nat)}
    {statement : Statement ρ} {n : Nat} (howner : Keeps v.owner owner)
    (hw : (v.answered c (v.log ++ [⟨c, v.count c, changes⟩]) v.late .idle owner).Labelled)
    (hstatement : statement.Respects H fun k => v.owner k = none) (htx : v.tx c = .idle)
    (hwrites : Writes accepts v.owner (v.contents c n) (v.contents c v.log.length) [] statement changes)
    (hfree : v.Free (c, v.count c) changes)
    (hallotted : ∀ change ∈ changes, v.owner change.key = none → owner change.key = some (c, v.count c)) :
    Lives H (v.answered c (v.log ++ [⟨c, v.count c, changes⟩]) v.late .idle owner) := by
  refine h.commits (e := ⟨c, v.count c, changes⟩) hw rfl howner (fun label changes' hl => ?_) ?_ hfree
    fun change hmem => howner.ne_none (hallotted change hmem)
  · have hunfinished : v.Unfinished label changes' := by
      rcases hl.of_ended (by simp) with ⟨-, hrunning⟩ | hlate
      · exact Or.inl hrunning
      · exact Or.inr hlate
    refine ⟨?_, hunfinished⟩
    rintro rfl
    exact Nat.lt_irrefl _ (h.labelled.unfinished hunfinished).1
  · refine hwrites.life hstatement _ h.histories (fun k => ?_) fun k hk => (h.fresh k hk).1
    rw [v.contents_now c k, htx]
    show ((history k v.log ++ []).getLast?).getD none = _
    rw [List.append_nil]

/-- A statement in a transaction. -/
theorem Lives.pending (h : Lives H v) {before changes : List (Change ρ)} {owner : Int → Option (C × Nat)}
    {statement : Statement ρ} {n number : Nat} (howner : Keeps v.owner owner)
    (hw : (v.answered c v.log v.late (.running number (before ++ changes)) owner).Labelled)
    (hstatement : statement.Respects H fun k => v.owner k = none) (htx : v.tx c = .running number before)
    (hwrites : Writes accepts v.owner (v.contents c n) (v.contents c v.log.length) before statement changes)
    (hfree : v.Free (c, number) changes)
    (hallotted : ∀ change ∈ changes, v.owner change.key = none → owner change.key = some (c, number)) :
    Lives H (v.answered c v.log v.late (.running number (before ++ changes)) owner) := by
  have hbefore : v.Unfinished (c, number) before := Or.inl htx
  refine h.changes hw rfl howner (c, number) (before ++ changes) (fun label' changes' hl => ?_)
    (fun k => ?_) (fun label' changes' hl hne change hmem => ?_) fun change hmem => ?_
  · rcases hl.of_answered with ⟨hc, hrunning⟩ | ⟨hc, hrunning⟩ | ⟨e, he, rfl, rfl⟩
    · cases hrunning
      exact Or.inr ⟨Prod.ext hc rfl, rfl⟩
    · exact Or.inl ⟨fun heq => hc (congrArg Prod.fst heq), Or.inl hrunning⟩
    · refine Or.inl ⟨?_, Or.inr ⟨e, he, rfl, rfl⟩⟩
      exact (h.labelled.running c number before htx).2 e (List.mem_append_right _ he)
  · rw [versions_append, ← List.append_assoc]
    refine hwrites.life hstatement (fun k => history k v.log ++ versions k before)
      (h.unfinished _ _ hbefore) (fun k => ?_) (fun k hk => ?_) k
    · rw [v.contents_now c k, htx]
      rfl
    · obtain ⟨hnil, hversions⟩ := h.fresh k hk
      rw [hnil, hversions _ _ hbefore]
      rfl
  · rcases List.mem_append.mp hmem with hmem | hmem
    · exact h.apart _ _ label' changes' hbefore hl hne.symm change hmem
    · exact hfree label' changes' hl hne change hmem
  · rcases List.mem_append.mp hmem with hmem | hmem
    · intro hnone
      have hnil := (h.fresh change.key (howner.eq_none hnone)).2 _ _ hbefore
      exact versions_eq_nil_iff.mp hnil (List.mem_map_of_mem hmem)
    · exact howner.ne_none (hallotted change hmem)

theorem Lives.step (h : Lives H v) {r : Request ρ} {answer : Answer ρ} (hstep : Allowed accepts c v r answer w)
    (hrespects : ∀ statement parameters, r = .execute statement parameters →
      statement.Respects H fun k => v.owner k = none) : Lives H w := by
  have hw := h.labelled.step hstep
  cases hstep with
  | begin _ howner =>
    refine h.goesOn howner hw fun n changes hrunning => ?_
    cases hrunning
    exact Or.inr rfl
  | beginError howner => exact h.goesOn howner hw fun n changes hrunning => Or.inl hrunning
  | read howner => exact h.goesOn howner hw fun n changes hrunning => Or.inl hrunning
  | written howner htx _ _ hwrites hfree hallotted =>
    exact h.written howner hw (hrespects _ _ rfl) htx hwrites hfree hallotted
  | writtenLost howner htx _ _ hwrites hfree hallotted =>
    exact h.written howner hw (hrespects _ _ rfl) htx hwrites hfree hallotted
  | pending howner htx _ _ hwrites hfree hallotted =>
    exact h.pending howner hw (hrespects _ _ rfl) htx hwrites hfree hallotted
  | refused howner =>
    refine h.goesOn howner hw fun n changes hrunning => ?_
    cases htx : v.tx c <;>
    · rw [htx] at hrunning
      cases hrunning
  | @commit _ _ number changes howner htx =>
    refine h.finishes (e := ⟨c, number, changes⟩) hw rfl howner (fun label changes' hl => ?_) (Or.inl htx)
    rcases hl.of_ended (by simp) with ⟨hc, hrunning⟩ | ⟨e, he, rfl, rfl⟩
    · exact ⟨fun heq => hc (congrArg Prod.fst heq), Or.inl hrunning⟩
    · exact ⟨(h.labelled.running c _ _ htx).2 e (List.mem_append_right _ he), Or.inr ⟨e, he, rfl, rfl⟩⟩
  | commitLost howner htx =>
    refine h.keeps hw rfl howner fun label changes' hl => ?_
    rcases hl.of_ended (by simp) with ⟨-, hrunning⟩ | ⟨e, he, rfl, rfl⟩
    · exact Or.inl (Or.inl hrunning)
    · rcases List.mem_append.mp he with he | he
      · exact Or.inl (Or.inr ⟨e, he, rfl, rfl⟩)
      · rw [List.mem_singleton.mp he]
        exact Or.inl (Or.inl htx)
  | commitRefused howner => exact h.goesOn howner hw fun n changes hrunning => by cases hrunning
  | commitFailed howner => exact h.goesOn howner hw fun n changes hrunning => by cases hrunning
  | rollback howner => exact h.goesOn howner hw fun n changes hrunning => by cases hrunning

theorem Lives.internal (h : Lives H v) (hstep : Internal v w) : Lives H w := by
  have hw := h.labelled.internal hstep
  cases hstep with
  | @settle before e after hlate =>
    have he : e ∈ v.late := by
      rw [hlate]
      exact List.mem_append_right _ List.mem_cons_self
    refine h.finishes (e := e) hw rfl (Keeps.refl _) (fun label changes hl => ⟨?_, ?_⟩) (Or.inr ⟨e, he, rfl, rfl⟩)
    · -- the label of the commit is now in the log
      intro heq
      exact (hw.unfinished hl).2 e (List.mem_append_right _ List.mem_cons_self) heq.symm
    · rcases hl with hrunning | ⟨e', he', hlabel⟩
      · exact Or.inl hrunning
      · refine Or.inr ⟨e', ?_, hlabel⟩
        rw [hlate]
        exact (List.Sublist.append_left (List.sublist_cons_self e after) before).subset he'
  | @drop before e after hlate =>
    refine h.keeps hw rfl (Keeps.refl _) fun label changes hl => Or.inl ?_
    rcases hl with hrunning | ⟨e', he', hlabel⟩
    · exact Or.inl hrunning
    · refine Or.inr ⟨e', ?_, hlabel⟩
      rw [hlate]
      exact (List.Sublist.append_left (List.sublist_cons_self e after) before).subset he'
  | @close c' _ _ _ =>
    refine h.keeps hw rfl (Keeps.refl _) fun label changes hl => Or.inl ?_
    rcases hl with hrunning | hlate
    · change Function.update v.tx c' .closed label.1 = _ at hrunning
      by_cases hc : label.1 = c'
      · rw [hc, Function.update_self] at hrunning
        cases hrunning
      · rw [Function.update_of_ne hc] at hrunning
        exact Or.inl hrunning
    · exact Or.inr hlate
  | allot howner => exact h.keeps hw rfl howner fun label changes hl => Or.inl hl

/-- **Every use of a database keeps the lives of its rows.** -/
theorem lives_invariant {usage : Usage ρ} (h : usage.Respects H) (accepts : ρ → Bool) :
    usage.Invariant accepts (Lives H (C := C)) :=
  ⟨fun _ _ query _ _ hallowed hlives => hlives.step hallowed fun statement parameters hquery =>
      (h query statement parameters hquery).mono fun _ _ => trivial,
    fun _ _ hinternal hlives => hlives.internal hinternal⟩

end Requests

end Database
