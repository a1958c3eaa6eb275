import AmpcCommon.Base.Process

/-!
# Messages of a larger type

A process can run over channels that carry more messages than its own: it sends its messages encoded, and ends when it
receives a message that is none of its own. As long as all processes are embedded in this way the additional messages do
not occur, so that whatever the processes complete with they also complete with over the larger type.
-/

namespace Process

variable {M N α β : Type}

/-- The process over encoded messages; `none` is returned when a message does not decode. -/
def embed (enc : M → N) (dec : N → Option M) : Process M α → Process N (Option α)
  | .pure a => .pure (some a)
  | .send d m k => .send d (enc m) (k.embed enc dec)
  | .recv d k => .recv d fun n => (dec n).elim (.pure none) fun m => (k m).embed enc dec
  | .spin => .spin

end Process

namespace Network

variable {P M N α : Type} [DecidableEq P] {next : Equiv.Perm P} {enc : M → N} {dec : N → Option M}

/-- All processes and all messages, embedded. -/
def Config.embed (enc : M → N) (dec : N → Option M) (c : Config P M α) : Config P N (Option α) :=
  ⟨fun p => (c.proc p).embed enc dec, fun key => (c.inbox key).map enc⟩

theorem step_embed (hdec : ∀ m, dec (enc m) = some m) {c t : Config P M α} {p : P} (h : step next c p = some t) :
    step next (c.embed enc dec) p = some (t.embed enc dec) := by
  have hproc : ∀ x : Process M α, (fun q => (Function.update c.proc p x q).embed enc dec) =
      Function.update (c.embed enc dec).proc p (x.embed enc dec) := by
    intro x
    funext q
    by_cases hq : q = p
    · subst hq
      simp
    · simp [Function.update_of_ne hq, Config.embed]
  have hinbox : ∀ (key : P × Dir) (ms : List M), (fun key' => (Function.update c.inbox key ms key').map enc) =
      Function.update (c.embed enc dec).inbox key (ms.map enc) := by
    intro key ms
    funext key'
    by_cases hkey : key' = key
    · subst hkey
      simp
    · simp [Function.update_of_ne hkey, Config.embed]
  rcases step_cases h with ⟨d, m, x, hp⟩ | ⟨d, x, m, ms, hp, hm⟩
  · rw [step_send hp] at h
    cases h
    have hp' : (c.embed enc dec).proc p = .send d (enc m) (x.embed enc dec) := by
      show (c.proc p).embed enc dec = _
      rw [hp]
      rfl
    rw [step_send hp']
    simp only [Config.embed] at hproc hinbox ⊢
    rw [hproc, hinbox, List.map_append]
    rfl
  · rw [step_recv hp hm] at h
    cases h
    have hp' : (c.embed enc dec).proc p =
        .recv d fun n => (dec n).elim (.pure none) fun m => (x m).embed enc dec := by
      show (c.proc p).embed enc dec = _
      rw [hp]
      rfl
    have hm' : (c.embed enc dec).inbox (p, d) = enc m :: ms.map enc := by
      show (c.inbox (p, d)).map enc = _
      rw [hm]
      rfl
    rw [step_recv hp' hm', hdec]
    simp only [Config.embed] at hproc hinbox ⊢
    rw [hproc, hinbox]
    rfl

theorem reaches_embed (hdec : ∀ m, dec (enc m) = some m) {c t : Config P M α}
    (h : Transition.Reaches (step next) c t) :
    Transition.Reaches (step next) (c.embed enc dec) (t.embed enc dec) := by
  obtain ⟨as, has⟩ := h
  induction as generalizing c with
  | nil =>
    cases has
    exact .refl _
  | cons a as ih =>
    obtain ⟨u, hu, hrest⟩ := Option.bind_eq_some_iff.mp has
    exact (Transition.Reaches.single (step_embed hdec hu)).trans (ih hrest)

/-- Embedded processes complete with the same results: no message that does not decode is received. -/
theorem Completes.embed (hdec : ∀ m, dec (enc m) = some m) {c : P → Process M α} {r : P → α}
    (h : Completes next c r) :
    Completes next (fun p => (c p).embed enc dec) fun p => some (r p) :=
  reaches_embed hdec h

end Network
