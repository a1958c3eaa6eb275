/-!
# Outcomes of fallible code

The repository reports failures in two ways: a function returns `Err` with a message, or it panics
(an out-of-bounds slice, an `expect` on `None`, a failed `assert`). An `Outcome` keeps the two apart,
since several of the properties proved about the code are that it never panics.
-/

namespace AmpcCommon

/-- A failure of a call: the `Err` it returned, or the panic it ended with. -/
inductive Failure where
  /-- The call returned `Err`. -/
  | error (msg : String)
  /-- The call panicked. -/
  | panic (msg : String)
  deriving Repr, DecidableEq

/-- The outcome of a fallible call. -/
abbrev Outcome (α : Type) := Except Failure α

namespace Outcome

/-- The call returned `Err` with the message `msg` (`bail!`). -/
def bail {α : Type} (msg : String) : Outcome α := .error (.error msg)

/-- The call panicked with the message `msg`. -/
def panicked {α : Type} (msg : String) : Outcome α := .error (.panic msg)

/-- The call returned, with `Ok` or with `Err`. -/
def Returns {α : Type} : Outcome α → Prop
  | .ok _ => True
  | .error (.error _) => True
  | .error (.panic _) => False

instance {α : Type} (o : Outcome α) : Decidable o.Returns :=
  match o with
  | .ok _ => inferInstanceAs (Decidable True)
  | .error (.error _) => inferInstanceAs (Decidable True)
  | .error (.panic _) => inferInstanceAs (Decidable False)

/-- The call returned `Ok`. -/
def Succeeds {α : Type} (o : Outcome α) : Prop := ∃ a, o = .ok a

@[simp] theorem returns_ok {α : Type} (a : α) : Returns (.ok a : Outcome α) := trivial

@[simp] theorem returns_bail {α : Type} (msg : String) : Returns (bail msg : Outcome α) := trivial

@[simp] theorem not_returns_panicked {α : Type} (msg : String) :
    ¬ Returns (panicked msg : Outcome α) := id

@[simp] theorem ok_bind {α β : Type} (a : α) (f : α → Outcome β) :
    ((.ok a : Outcome α) >>= f) = f a := rfl

theorem bind_eq_ok {α β : Type} {o : Outcome α} {f : α → Outcome β} {b : β} :
    (o >>= f) = .ok b ↔ ∃ a, o = .ok a ∧ f a = .ok b := by
  cases o with
  | ok a =>
    constructor
    · intro h
      exact ⟨a, rfl, h⟩
    · rintro ⟨_, h, hf⟩
      cases h
      exact hf
  | error e =>
    constructor
    · intro h
      cases h
    · rintro ⟨_, h, _⟩
      cases h

theorem Returns.bind {α β : Type} {o : Outcome α} {f : α → Outcome β} (h : o.Returns)
    (hf : ∀ a, o = .ok a → (f a).Returns) : (o >>= f).Returns := by
  cases o with
  | ok a => exact hf a rfl
  | error e =>
    cases e with
    | error msg => trivial
    | panic msg => exact h

/-- The call returns a value with `Q` when `P` holds, and `Err` when it does not. -/
def Decides {α : Type} (P : Prop) (Q : α → Prop) (o : Outcome α) : Prop :=
  P ∧ (∃ a, o = .ok a ∧ Q a) ∨ ¬ P ∧ ∃ msg, o = .bail msg

namespace Decides

variable {α β : Type} {P P' : Prop} {Q : α → Prop} {o : Outcome α}

theorem returns (h : Decides P Q o) : o.Returns := by
  rcases h with ⟨-, a, rfl, -⟩ | ⟨-, msg, rfl⟩
  · trivial
  · trivial

theorem inv (h : Decides P Q o) {a : α} (ho : o = .ok a) : P ∧ Q a := by
  rcases h with ⟨hP, b, hb, hQ⟩ | ⟨-, msg, hmsg⟩
  · rw [hb] at ho
    cases ho
    exact ⟨hP, hQ⟩
  · rw [hmsg] at ho
    cases ho

theorem succeeds_iff (h : Decides P Q o) : o.Succeeds ↔ P := by
  constructor
  · rintro ⟨a, ha⟩
    exact (h.inv ha).1
  · intro hP
    rcases h with ⟨-, a, ha, -⟩ | ⟨hnot, -⟩
    · exact ⟨a, ha⟩
    · exact absurd hP hnot

theorem congr (h : Decides P Q o) (hP : P' ↔ P) : Decides P' Q o := by
  unfold Decides
  rw [hP]
  exact h

theorem of_ok {a : α} (ho : o = .ok a) (hQ : Q a) : Decides True Q o := Or.inl ⟨trivial, a, ho, hQ⟩

theorem of_bail (hP : ¬ P) (msg : String) : Decides P Q (.bail msg) := Or.inr ⟨hP, msg, rfl⟩

/-- A check in front of a call. -/
theorem check {c : Prop} [Decidable c] (msg : String) (h : ¬ c → Decides P Q o) :
    Decides (¬ c ∧ P) Q (if c then .bail msg else o) := by
  by_cases hc : c
  · rw [if_pos hc]
    exact of_bail (fun hP => hP.1 hc) msg
  · rw [if_neg hc]
    exact (h hc).congr (and_iff_right hc)

theorem bind {Q' : β → Prop} {f : α → Outcome β} (h : Decides P Q o)
    (hf : ∀ a, Q a → Decides True Q' (f a)) : Decides P Q' (o >>= f) := by
  rcases h with ⟨hP, a, rfl, hQ⟩ | ⟨hP, msg, rfl⟩
  · exact (hf a hQ).congr (iff_true_intro hP)
  · exact of_bail hP msg

end Decides

theorem mapM_eq_ok {α β : Type} {f : α → Outcome β} {g : α → β} {l : List α}
    (h : ∀ a ∈ l, f a = .ok (g a)) : l.mapM f = .ok (l.map g) := by
  induction l with
  | nil => rfl
  | cons a l ih =>
    rw [List.mapM_cons, h a List.mem_cons_self, ih fun b hb => h b (List.mem_cons_of_mem _ hb)]
    rfl

end Outcome

end AmpcCommon
