import Mathlib.Tactic.Common

/-!
# Runs of a transition system

A transition system is a partial step function; `Transition.run` makes a list of steps. The rule
`Transition.run_invariant` derives what holds after every run from what one step keeps, and
`Transition.Along` is a condition on every step of a run, stated on the state before it.

When steps of different actions commute (`Transition.Diamond`), one run to a terminal state tells about
all of them: every run is a part of a run to that state, of the same length (`Transition.descent`).
-/

namespace Transition

variable {S A : Type} (step : S → A → Option S)

/-- Make the steps `as`, one after the other; `none` when one of them is not possible. -/
def run : S → List A → Option S
  | s, [] => some s
  | s, a :: as => (step s a).bind fun t => run t as

/-- Every step of a run meets the condition `P` in the state before it. -/
def Along (P : S → A → Prop) : S → List A → Prop
  | _, [] => True
  | s, a :: as => P s a ∧ ∀ t, step s a = some t → Along P t as

instance decidableAlong (P : S → A → Prop) [∀ s a, Decidable (P s a)] :
    ∀ s as, Decidable (Along step P s as)
  | _, [] => inferInstanceAs (Decidable True)
  | s, a :: as =>
    match hstep : step s a with
    | none => decidable_of_iff (P s a) (by simp [Along, hstep])
    | some t =>
      have := decidableAlong P t as
      decidable_of_iff (P s a ∧ Along step P t as) (by simp [Along, hstep])

variable {step} {P : S → A → Prop} {I : S → Prop}

/-- What every step that meets `P` keeps, every run keeps whose steps meet `P`. -/
theorem run_invariant_along
    (hstep : ∀ s a t, P s a → step s a = some t → I s → I t)
    {s t : S} {as : List A} (halong : Along step P s as) (hrun : run step s as = some t)
    (hs : I s) : I t := by
  induction as generalizing s with
  | nil =>
    cases hrun
    exact hs
  | cons a as ih =>
    obtain ⟨u, hu, hrest⟩ := Option.bind_eq_some_iff.mp hrun
    exact ih (halong.2 u hu) hrest (hstep s a u halong.1 hu hs)

theorem along_true (s : S) (as : List A) : Along step (fun _ _ => True) s as := by
  induction as generalizing s with
  | nil => trivial
  | cons a as ih => exact ⟨trivial, fun t _ => ih t⟩

/-- What every step that is made meets in every state. -/
theorem along_of_mem {as : List A} (h : ∀ a ∈ as, ∀ s, P s a) (s : S) : Along step P s as := by
  induction as generalizing s with
  | nil => trivial
  | cons a as ih =>
    exact ⟨h a List.mem_cons_self s, fun t _ => ih (fun b hb => h b (List.mem_cons_of_mem _ hb)) t⟩

/-- What every step keeps, every run keeps. -/
theorem run_invariant (hstep : ∀ s a t, step s a = some t → I s → I t)
    {s t : S} {as : List A} (hrun : run step s as = some t) (hs : I s) : I t :=
  run_invariant_along (fun s a t _ => hstep s a t) (along_true s as) hrun hs

/-- Two conditions that are the same in the states of an invariant, which one of them keeps. -/
theorem along_iff {Q : S → A → Prop} (hstep : ∀ s a t, I s → P s a → step s a = some t → I t)
    (hiff : ∀ s a, I s → (P s a ↔ Q s a)) {s : S} (hs : I s) (as : List A) : Along step P s as ↔ Along step Q s as := by
  induction as generalizing s with
  | nil => exact Iff.rfl
  | cons a as ih =>
    constructor
    · rintro ⟨hp, hrest⟩
      exact ⟨(hiff s a hs).mp hp, fun t ht => (ih (hstep s a t hs hp ht)).mp (hrest t ht)⟩
    · rintro ⟨hq, hrest⟩
      have hp := (hiff s a hs).mpr hq
      exact ⟨hp, fun t ht => (ih (hstep s a t hs hp ht)).mpr (hrest t ht)⟩

theorem run_append (s : S) (as bs : List A) :
    run step s (as ++ bs) = (run step s as).bind fun t => run step t bs := by
  induction as generalizing s with
  | nil => rfl
  | cons a as ih =>
    show (step s a).bind (fun t => run step t (as ++ bs)) = _
    rw [funext ih, ← Option.bind_assoc]
    rfl

theorem run_concat (s : S) (as : List A) (a : A) :
    run step s (as ++ [a]) = (run step s as).bind fun t => step t a := by
  rw [run_append]
  congr
  funext t
  show (step t a).bind some = _
  cases step t a <;> rfl

/-- Some run leads from `s` to `t`. -/
def Reaches (step : S → A → Option S) (s t : S) : Prop := ∃ as, run step s as = some t

theorem Reaches.refl (s : S) : Reaches step s s := ⟨[], rfl⟩

theorem Reaches.single {s t : S} {a : A} (h : step s a = some t) : Reaches step s t :=
  ⟨[a], by simp [run, h]⟩

theorem Reaches.trans {s t u : S} (h : Reaches step s t) (h' : Reaches step t u) :
    Reaches step s u := by
  obtain ⟨as, has⟩ := h
  obtain ⟨bs, hbs⟩ := h'
  exact ⟨as ++ bs, by rw [run_append, has]; exact hbs⟩

/-- Every step is impossible. -/
def Terminal (step : S → A → Option S) (s : S) : Prop := ∀ a, step s a = none

/-- Every step makes the measure of the state smaller. -/
def Decreases (step : S → A → Option S) (measure : S → Nat) : Prop :=
  ∀ s a t, step s a = some t → measure t < measure s

theorem Decreases.length_le {measure : S → Nat} (h : Decreases step measure) {s t : S} {as : List A}
    (hrun : run step s as = some t) : as.length + measure t ≤ measure s := by
  induction as generalizing s with
  | nil =>
    cases hrun
    exact Nat.le_of_eq (Nat.zero_add _)
  | cons a as ih =>
    obtain ⟨u, hu, hrest⟩ := Option.bind_eq_some_iff.mp hrun
    have hfirst := h s a u hu
    have hlast := ih hrest
    rw [List.length_cons]
    omega

/-- Then every run can be brought to an end. -/
theorem Decreases.exists_terminal {measure : S → Nat} (h : Decreases step measure) (s : S) :
    ∃ t, Reaches step s t ∧ Terminal step t := by
  induction hm : measure s using Nat.strongRecOn generalizing s with
  | _ m ih =>
    subst hm
    by_cases hterm : Terminal step s
    · exact ⟨s, Reaches.refl s, hterm⟩
    · unfold Terminal at hterm
      push Not at hterm
      obtain ⟨a, ha⟩ := hterm
      obtain ⟨t, ht⟩ := Option.ne_none_iff_exists'.mp ha
      obtain ⟨u, htu, hu⟩ := ih (measure t) (h s a t ht) t rfl
      exact ⟨u, (Reaches.single ht).trans htu, hu⟩

/-- Two different actions that are possible in a state commute. -/
def Diamond (step : S → A → Option S) : Prop :=
  ∀ s a b t u, a ≠ b → step s a = some t → step s b = some u →
    ∃ v, step t b = some v ∧ step u a = some v

/-- A step brings every terminal state that can be reached one step nearer. -/
theorem Diamond.next [DecidableEq A] (hd : Diamond step) {f : S} (hf : Terminal step f)
    (as : List A) {s t : S} {a : A} (hrun : run step s as = some f) (hstep : step s a = some t) :
    ∃ bs, bs.length + 1 = as.length ∧ run step t bs = some f := by
  induction as generalizing s t with
  | nil =>
    cases hrun
    rw [hf a] at hstep
    cases hstep
  | cons b as ih =>
    obtain ⟨u, hu, hrest⟩ := Option.bind_eq_some_iff.mp hrun
    by_cases hab : a = b
    · subst hab
      rw [hstep] at hu
      cases hu
      exact ⟨as, rfl, hrest⟩
    · obtain ⟨v, htv, huv⟩ := hd s a b t u hab hstep hu
      obtain ⟨bs, hlen, hbs⟩ := ih hrest huv
      refine ⟨b :: bs, by simp [hlen], ?_⟩
      unfold run
      rw [htv]
      exact hbs

/-- **Random descent.** If one run leads to a terminal state, every run is the beginning of one of the same
length that leads to this state. -/
theorem Diamond.descent [DecidableEq A] (hd : Diamond step) {f : S} (hf : Terminal step f)
    {s t : S} {as bs : List A} (hrun : run step s as = some f) (hother : run step s bs = some t) :
    ∃ cs, bs.length + cs.length = as.length ∧ run step t cs = some f := by
  induction bs generalizing s as with
  | nil =>
    cases hother
    exact ⟨as, by simp, hrun⟩
  | cons b bs ih =>
    obtain ⟨u, hu, hrest⟩ := Option.bind_eq_some_iff.mp hother
    obtain ⟨as', hlen, has'⟩ := hd.next hf as hrun hu
    obtain ⟨cs, hcs, hrun'⟩ := ih has' hrest
    exact ⟨cs, by simp; omega, hrun'⟩

/-- All runs that cannot go on end in the same state. -/
theorem Diamond.terminal_unique [DecidableEq A] (hd : Diamond step) {s f g : S}
    (hf : Terminal step f) (hg : Terminal step g) (hsf : Reaches step s f)
    (hsg : Reaches step s g) : f = g := by
  obtain ⟨as, has⟩ := hsf
  obtain ⟨bs, hbs⟩ := hsg
  obtain ⟨cs, -, hcs⟩ := hd.descent hf has hbs
  cases cs with
  | nil =>
    cases hcs
    rfl
  | cons c cs =>
    unfold run at hcs
    rw [hg c] at hcs
    cases hcs

end Transition
