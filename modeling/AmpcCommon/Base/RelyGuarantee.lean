import AmpcCommon.Base.Transition
import Mathlib.Logic.Relation

/-!
# Programs under interference

A program is a tree of atomic operations on a state that it shares with others, who may change the state between any
two of its operations. `Safe R G Q` says of a program in a state: as long as the others make steps of `R` only, each of
its own steps is one of `G`, and `Q` holds from its return on. The rules follow the program; `Safe.run` is what they say
about the runs. -/

namespace RelyGuarantee

/-- A program of operations `Op`, where `o` is answered by an `Ans o`. -/
inductive Prog (Op : Type) (Ans : Op → Type) (α : Type) where
  | done (a : α)
  | act (o : Op) (k : Ans o → Prog Op Ans α)

variable {Op : Type} {Ans : Op → Type} {α β : Type}

namespace Prog

/-- One program after the other. -/
def bind : Prog Op Ans α → (α → Prog Op Ans β) → Prog Op Ans β
  | done a, f => f a
  | act o k, f => act o fun a => (k a).bind f

instance : Monad (Prog Op Ans) where
  pure := done
  bind := bind

/-- The program of one operation. -/
def call (o : Op) : Prog Op Ans (Ans o) := act o done

end Prog

open Prog

variable {S Choice Env : Type}

/-- A step of a run: of the program, where `Choice` is what the operation leaves open, or of the others. -/
inductive Move (Choice Env : Type) where
  | own (choice : Choice)
  | env (event : Env)

variable (perform : (o : Op) → Choice → S → Option (Ans o × S)) (interfere : Env → S → Option S)

/-- One step of a program and of those that it shares the state with. -/
def step (c : Prog Op Ans α × S) : Move Choice Env → Option (Prog Op Ans α × S)
  | .own choice =>
    match c.1 with
    | done _ => none
    | act o k => (perform o choice c.2).map fun r => (k r.1, r.2)
  | .env event => (interfere event c.2).map fun t => (c.1, t)

variable (R G : S → S → Prop)

/-- The program makes steps of `G` when the others make steps of `R`, and returns with `Q`. -/
def Safe (Q : α → S → Prop) : Prog Op Ans α → S → Prop
  | done a, s => ∀ s', R s s' → Q a s'
  | act o k, s => ∀ s', R s s' → ∀ choice a t, perform o choice s' = some (a, t) → G s' t ∧ Safe Q (k a) t

variable {perform interfere R G}

theorem Safe.stable {Q : α → S → Prop} (htrans : ∀ a b c, R a b → R b c → R a c) {p : Prog Op Ans α} {s s' : S}
    (h : Safe perform R G Q p s) (hR : R s s') : Safe perform R G Q p s' := by
  cases p with
  | done a => exact fun t ht => h t (htrans _ _ _ hR ht)
  | act o k => exact fun t ht => h t (htrans _ _ _ hR ht)

/-- The rule of consequence. -/
theorem Safe.mono {G' : S → S → Prop} {Q Q' : α → S → Prop} (hG : ∀ s t, G s t → G' s t)
    (hQ : ∀ a s, Q a s → Q' a s) {p : Prog Op Ans α} {s : S} (h : Safe perform R G Q p s) :
    Safe perform R G' Q' p s := by
  induction p generalizing s with
  | done a => exact fun s' hs' => hQ a s' (h s' hs')
  | act o k ih =>
    intro s' hs' choice a t ht
    obtain ⟨hstep, hrest⟩ := h s' hs' choice a t ht
    exact ⟨hG _ _ hstep, ih a hrest⟩

/-- The rule of sequencing. -/
theorem Safe.bind (hrefl : ∀ s, R s s) {Q : β → S → Prop} {p : Prog Op Ans α} {f : α → Prog Op Ans β} {s : S}
    (h : Safe perform R G (fun a t => Safe perform R G Q (f a) t) p s) : Safe perform R G Q (p >>= f) s := by
  induction p generalizing s with
  | done a => exact h s (hrefl s)
  | act o k ih =>
    intro s' hs' choice a t ht
    obtain ⟨hstep, hrest⟩ := h s' hs' choice a t ht
    exact ⟨hstep, ih a hrest⟩

/-- The rule of a return. -/
theorem Safe.pure {Q : α → S → Prop} {a : α} {s : S} (h : ∀ s', R s s' → Q a s') :
    Safe perform R G Q (Pure.pure a : Prog Op Ans α) s := h

/-- The rule of an operation. -/
theorem Safe.call {Q : β → S → Prop} {o : Op} {f : Ans o → Prog Op Ans β} {s : S}
    (h : ∀ s', R s s' → ∀ choice a t, perform o choice s' = some (a, t) → G s' t ∧ Safe perform R G Q (f a) t) :
    Safe perform R G Q (Prog.call o >>= f) s := h

/-- What a step of the run leaves: the rest of the program is safe, and the state has changed by `R` or by `G`. -/
theorem Safe.step (hrefl : ∀ s, R s s) (htrans : ∀ a b c, R a b → R b c → R a c)
    (hinterfere : ∀ e s t, interfere e s = some t → R s t) {Q : α → S → Prop} {c d : Prog Op Ans α × S}
    {move : Move Choice Env} (h : Safe perform R G Q c.1 c.2) (hstep : step perform interfere c move = some d) :
    Safe perform R G Q d.1 d.2 ∧ (R c.2 d.2 ∨ G c.2 d.2) := by
  obtain ⟨p, s⟩ := c
  cases move with
  | own choice =>
    cases p with
    | done a => cases hstep
    | act o k =>
      obtain ⟨r, hr, rfl⟩ := Option.map_eq_some_iff.mp hstep
      obtain ⟨hG, hrest⟩ := h s (hrefl s) choice r.1 r.2 hr
      exact ⟨hrest, Or.inr hG⟩
  | env event =>
    obtain ⟨t, ht, rfl⟩ := Option.map_eq_some_iff.mp hstep
    have hR := hinterfere event s t ht
    exact ⟨Safe.stable htrans h hR, Or.inl hR⟩

/-- **Soundness.** In every run of a safe program the state changes by steps of `R` and of `G`, and what is left of
the program is safe. -/
theorem Safe.run (hrefl : ∀ s, R s s) (htrans : ∀ a b c, R a b → R b c → R a c)
    (hinterfere : ∀ e s t, interfere e s = some t → R s t) {Q : α → S → Prop} {c d : Prog Op Ans α × S}
    {moves : List (Move Choice Env)} (h : Safe perform R G Q c.1 c.2)
    (hrun : Transition.run (RelyGuarantee.step perform interfere) c moves = some d) :
    Safe perform R G Q d.1 d.2 ∧ Relation.ReflTransGen (fun s t => R s t ∨ G s t) c.2 d.2 := by
  refine Transition.run_invariant (I := fun d => Safe perform R G Q d.1 d.2 ∧
    Relation.ReflTransGen (fun s t => R s t ∨ G s t) c.2 d.2) ?_ hrun ⟨h, Relation.ReflTransGen.refl⟩
  intro d move e hstep hd
  obtain ⟨hsafe, hpath⟩ := hd
  obtain ⟨hsafe', hlast⟩ := hsafe.step hrefl htrans hinterfere hstep
  exact ⟨hsafe', hpath.tail hlast⟩

/-- What holds when the program has returned. -/
theorem Safe.returns (hrefl : ∀ s, R s s) {Q : α → S → Prop} {a : α} {s : S}
    (h : Safe perform R G Q (done a : Prog Op Ans α) s) : Q a s := h s (hrefl s)

/-! ## Programs that end -/

/-- What the program has returned. -/
def Prog.result? : Prog Op Ans α → Option α
  | done a => some a
  | act _ _ => none

theorem Prog.result?_eq_some {p : Prog Op Ans α} {a : α} (h : p.result? = some a) : p = done a := by
  cases p with
  | done b =>
    cases h
    rfl
  | act o k => cases h

/-- The program makes at most `n` operations. -/
def Prog.Within : Prog Op Ans α → Nat → Prop
  | done _, _ => True
  | act _ _, 0 => False
  | act _ k, n + 1 => ∀ a, (k a).Within n

theorem Prog.Within.mono {p : Prog Op Ans α} {m n : Nat} (h : p.Within m) (hmn : m ≤ n) : p.Within n := by
  induction p generalizing m n with
  | done a => trivial
  | act o k ih =>
    cases m with
    | zero => exact False.elim h
    | succ m =>
      cases n with
      | zero => cases hmn
      | succ n => exact fun a => ih a (h a) (Nat.le_of_succ_le_succ hmn)

theorem Prog.Within.call {o : Op} {f : Ans o → Prog Op Ans β} {n : Nat} (h : ∀ a, (f a).Within n) :
    (Prog.call o >>= f).Within (n + 1) := h

/-- Whether a step of a run is one of the program. -/
def Move.isOwn : Move Choice Env → Bool
  | .own _ => true
  | .env _ => false

/-- No run makes more operations of the program. -/
theorem Prog.Within.run {c d : Prog Op Ans α × S} {moves : List (Move Choice Env)} {n : Nat} (h : c.1.Within n)
    (hrun : Transition.run (RelyGuarantee.step perform interfere) c moves = some d) : moves.countP Move.isOwn ≤ n := by
  induction moves generalizing c n with
  | nil => exact Nat.zero_le n
  | cons move moves ih =>
    obtain ⟨e, hstep, hrest⟩ := Option.bind_eq_some_iff.mp hrun
    cases move with
    | own choice =>
      rw [List.countP_cons_of_pos (show Move.isOwn (.own choice : Move Choice Env) = true from rfl)]
      obtain ⟨p, s⟩ := c
      cases p with
      | done a => cases hstep
      | act o k =>
        obtain ⟨r, -, rfl⟩ := Option.map_eq_some_iff.mp hstep
        cases n with
        | zero => exact False.elim h
        | succ n => exact Nat.succ_le_succ (ih (h r.1) hrest)
    | env event =>
      rw [List.countP_cons_of_neg (show ¬ Move.isOwn (.env event : Move Choice Env) = true from Bool.false_ne_true)]
      obtain ⟨t, -, rfl⟩ := Option.map_eq_some_iff.mp hstep
      exact ih (c := (c.1, t)) h hrest

/-- When the others can enable every operation, every run can be brought to a return. -/
theorem Prog.exists_return (henabled : ∀ o s, ∃ event t choice r, interfere event s = some t ∧
    perform o choice t = some r) (p : Prog Op Ans α) (s : S) :
    ∃ moves a t, Transition.run (RelyGuarantee.step perform interfere) (p, s) moves = some (done a, t) := by
  induction p generalizing s with
  | done a => exact ⟨[], a, s, rfl⟩
  | act o k ih =>
    obtain ⟨event, t, choice, r, hevent, hperform⟩ := henabled o s
    obtain ⟨moves, a, u, hrun⟩ := ih r.1 r.2
    refine ⟨.env event :: .own choice :: moves, a, u, ?_⟩
    have hfirst : RelyGuarantee.step perform interfere (act o k, s) (.env event) = some (act o k, t) := by
      show (interfere event s).map _ = _
      rw [hevent]
      rfl
    have hsecond : RelyGuarantee.step perform interfere (act o k, t) (.own choice : Move Choice Env) =
        some (k r.1, r.2) := by
      show (perform o choice t).map _ = _
      rw [hperform]
      rfl
    show (RelyGuarantee.step perform interfere (act o k, s) (.env event)).bind _ = _
    rw [hfirst]
    show (RelyGuarantee.step perform interfere (act o k, t) (.own choice)).bind _ = _
    rw [hsecond]
    exact hrun

end RelyGuarantee
