import AmpcCommon.Base.Transition
import Mathlib.Algebra.BigOperators.Group.Finset.Piecewise
import Mathlib.Data.Fintype.Basic

/-!
# Processes in a ring

A finite set of processes is arranged in a ring by a permutation `next`. A process sends messages to its
two neighbours and receives messages from them; every neighbour has a queue of its own, so the channels
are first-in first-out. A step of the network is a step of one process.

A process only waits for one neighbour at a time, so steps of different processes commute
(`Network.diamond`), and one complete run decides all runs (`Network.Completes.settles`). It is enough to
exhibit one run, and the rules at the end of the module do this: processes that complete in sequence
(`Completes.bind`), messages that are passed on (`reaches_pass`, `reaches_swap`), rounds in which all processes send
and then receive (`reaches_shift`, `reaches_exchange`).
-/

/-- The two neighbours of a process. -/
inductive Dir where
  | next
  | prev
  deriving Repr, DecidableEq

/-- The direction a neighbour sees a process in. -/
def Dir.flip : Dir → Dir
  | .next => .prev
  | .prev => .next

@[simp] theorem Dir.flip_flip (d : Dir) : d.flip.flip = d := by
  cases d <;> rfl

theorem Dir.flip_injective : Function.Injective Dir.flip := by
  intro d d' h
  cases d <;> cases d' <;> first | rfl | cases h

/-- A process: what it sends and receives, and what it returns. -/
inductive Process (M α : Type) where
  | pure (a : α)
  | send (d : Dir) (m : M) (k : Process M α)
  | recv (d : Dir) (k : M → Process M α)
  /-- A local computation that does not end. -/
  | spin

namespace Process

variable {M α β γ : Type}

/-- Run a process and continue with its result. -/
def bind : Process M α → (α → Process M β) → Process M β
  | .pure a, f => f a
  | .send d m k, f => .send d m (k.bind f)
  | .recv d k, f => .recv d fun m => (k m).bind f
  | .spin, _ => .spin

theorem bind_assoc (x : Process M α) (f : α → Process M β) (g : β → Process M γ) :
    (x.bind f).bind g = x.bind fun a => (f a).bind g := by
  induction x with
  | pure a => rfl
  | send d m k ih =>
    simp only [bind]
    rw [ih]
  | recv d k ih =>
    simp only [bind]
    congr
    funext m
    exact ih m
  | spin => rfl

theorem bind_pure (x : Process M α) : x.bind .pure = x := by
  induction x with
  | pure a => rfl
  | send d m k ih =>
    simp only [bind]
    rw [ih]
  | recv d k ih =>
    simp only [bind]
    congr
    funext m
    exact ih m
  | spin => rfl

/-- Send a message to both neighbours and receive one from each, first from the next one. -/
def announce (m : M) (f : M → M → α) : Process M α :=
  .send .next m (.send .prev m (.recv .next fun a => .recv .prev fun b => .pure (f a b)))

/-- Mark the messages that a process sends with `tag`, and return the marks of those it receives. -/
def tagged {T : Type} (tag : T) : Process M α → Process (T × M) (α × List T)
  | .pure a => .pure (a, [])
  | .send d m k => .send d (tag, m) (k.tagged tag)
  | .recv d k => .recv d fun m => ((k m.2).tagged tag).bind fun r => .pure (r.1, m.1 :: r.2)
  | .spin => .spin

theorem tagged_announce {T : Type} (tag : T) (m : M) (f : M → M → α) :
    (announce m f).tagged tag = announce (tag, m) fun a b => (f a.2 b.2, [a.1, b.1]) := rfl

/-- The second process does what the first one does, as far as the first one does not spin. -/
inductive Le : Process M α → Process M α → Prop where
  | spin (y : Process M α) : Le .spin y
  | pure (a : α) : Le (.pure a) (.pure a)
  | send (d : Dir) (m : M) {k k' : Process M α} : Le k k' → Le (.send d m k) (.send d m k')
  | recv (d : Dir) {k k' : M → Process M α} : (∀ m, Le (k m) (k' m)) → Le (.recv d k) (.recv d k')

theorem Le.refl (x : Process M α) : Le x x := by
  induction x with
  | pure a => exact .pure a
  | send d m k ih => exact .send d m ih
  | recv d k ih => exact .recv d ih
  | spin => exact .spin _

theorem Le.bind {x y : Process M α} {f g : α → Process M β} (h : Le x y) (hf : ∀ a, Le (f a) (g a)) :
    Le (x.bind f) (y.bind g) := by
  induction h with
  | spin y => exact .spin _
  | pure a => exact hf a
  | send d m _ ih => exact .send d m ih
  | recv d _ ih => exact .recv d ih

end Process

namespace Network

variable {P M α β : Type} [DecidableEq P] (next : Equiv.Perm P)

/-- The neighbour of a process in a direction. -/
def peer (p : P) : Dir → P
  | .next => next p
  | .prev => next.symm p

/-- The processes, and the messages that wait for each of them from each neighbour. -/
structure Config (P M α : Type) where
  proc : P → Process M α
  inbox : P × Dir → List M

/-- One step of the process `p`; `none` when it has returned or waits for a message. -/
def step (c : Config P M α) (p : P) : Option (Config P M α) :=
  match c.proc p with
  | .pure _ => none
  | .spin => none
  | .send d m k =>
    let key := (peer next p d, d.flip)
    some ⟨Function.update c.proc p k, Function.update c.inbox key (c.inbox key ++ [m])⟩
  | .recv d k =>
    match c.inbox (p, d) with
    | [] => none
    | m :: ms => some ⟨Function.update c.proc p (k m), Function.update c.inbox (p, d) ms⟩

/-- Processes that start with no messages in flight. -/
def start (c : P → Process M α) : Config P M α := ⟨c, fun _ => []⟩

variable {next}

theorem step_send {c : Config P M α} {p : P} {d : Dir} {m : M} {k : Process M α}
    (h : c.proc p = .send d m k) :
    step next c p = some ⟨Function.update c.proc p k,
      Function.update c.inbox (peer next p d, d.flip)
        (c.inbox (peer next p d, d.flip) ++ [m])⟩ := by
  unfold step
  rw [h]

theorem step_recv {c : Config P M α} {p : P} {d : Dir} {k : M → Process M α} {m : M} {l : List M}
    (h : c.proc p = .recv d k) (hm : c.inbox (p, d) = m :: l) :
    step next c p = some ⟨Function.update c.proc p (k m), Function.update c.inbox (p, d) l⟩ := by
  unfold step
  rw [h]
  dsimp only
  rw [hm]

/-- A step is a send, or a receive of a message that is there. -/
theorem step_cases {c t : Config P M α} {p : P} (h : step next c p = some t) :
    (∃ d m k, c.proc p = .send d m k) ∨
    (∃ d k m ms, c.proc p = .recv d k ∧ c.inbox (p, d) = m :: ms) := by
  unfold step at h
  split at h
  next => cases h
  next => cases h
  next d m k hp => exact Or.inl ⟨d, m, k, hp⟩
  next d k hp =>
    split at h
    next => cases h
    next m ms hm => exact Or.inr ⟨d, k, m, ms, hp, hm⟩

omit [DecidableEq P] in
theorem peer_injective (d : Dir) : Function.Injective fun p => peer next p d := by
  intro p q h
  cases d with
  | next => exact next.injective h
  | prev => exact next.symm.injective h

omit [DecidableEq P] in
/-- Two processes do not send to the same queue. -/
theorem sendKey_ne {p q : P} (hpq : p ≠ q) (d d' : Dir) :
    (peer next p d, d.flip) ≠ (peer next q d', d'.flip) := by
  intro h
  obtain ⟨hp, hd⟩ := Prod.mk.inj h
  have hd := Dir.flip_injective hd
  subst hd
  exact hpq (peer_injective d hp)

/-- A send and a receive of another process commute. -/
theorem diamond_send_recv {c t u : Config P M α} {p q : P} (hpq : p ≠ q) {d d' : Dir} {m m' : M}
    {k : Process M α} {k' : M → Process M α} {ms : List M} (hp : c.proc p = .send d m k)
    (hq : c.proc q = .recv d' k') (hm : c.inbox (q, d') = m' :: ms)
    (ht : step next c p = some t) (hu : step next c q = some u) :
    ∃ v, step next t q = some v ∧ step next u p = some v := by
  rw [step_send hp] at ht
  rw [step_recv hq hm] at hu
  cases ht
  cases hu
  have htq : Function.update c.proc p k q = .recv d' k' := by
    rw [Function.update_of_ne hpq.symm]
    exact hq
  have hup : Function.update c.proc q (k' m') p = .send d m k := by
    rw [Function.update_of_ne hpq]
    exact hp
  by_cases hkey : (q, d') = (peer next p d, d.flip)
  · -- the message is sent to the queue the other process reads from
    have htm : Function.update c.inbox (peer next p d, d.flip)
        (c.inbox (peer next p d, d.flip) ++ [m]) (q, d') = m' :: (ms ++ [m]) := by
      rw [← hkey, Function.update_self, hm]
      rfl
    refine ⟨_, step_recv htq htm, ?_⟩
    rw [step_send hup]
    simp only [← hkey, Function.update_idem, Function.update_self, Option.some.injEq,
      Config.mk.injEq, and_true]
    exact Function.update_comm hpq.symm _ _ _
  · have htm : Function.update c.inbox (peer next p d, d.flip)
        (c.inbox (peer next p d, d.flip) ++ [m]) (q, d') = m' :: ms := by
      rw [Function.update_of_ne hkey]
      exact hm
    refine ⟨_, step_recv htq htm, ?_⟩
    rw [step_send hup]
    simp only [Function.update_of_ne (Ne.symm hkey), Option.some.injEq, Config.mk.injEq]
    exact ⟨Function.update_comm hpq.symm _ _ _, Function.update_comm hkey _ _ _⟩

theorem diamond : Transition.Diamond (step next : Config P M α → P → Option (Config P M α)) := by
  intro c p q t u hpq ht hu
  rcases step_cases ht with ⟨d, m, k, hp⟩ | ⟨d, k, m, ms, hp, hm⟩
  · rcases step_cases hu with ⟨d', m', k', hq⟩ | ⟨d', k', m', ms', hq, hm'⟩
    · rw [step_send hp] at ht
      rw [step_send hq] at hu
      cases ht
      cases hu
      have htq : Function.update c.proc p k q = .send d' m' k' := by
        rw [Function.update_of_ne hpq.symm]
        exact hq
      have hup : Function.update c.proc q k' p = .send d m k := by
        rw [Function.update_of_ne hpq]
        exact hp
      have hkey : (peer next p d, d.flip) ≠ (peer next q d', d'.flip) := sendKey_ne hpq d d'
      refine ⟨_, step_send htq, ?_⟩
      rw [step_send hup]
      simp only [Function.update_of_ne hkey, Function.update_of_ne hkey.symm, Option.some.injEq,
        Config.mk.injEq]
      exact ⟨Function.update_comm hpq.symm _ _ _, Function.update_comm hkey.symm _ _ _⟩
    · exact diamond_send_recv hpq hp hq hm' ht hu
  · rcases step_cases hu with ⟨d', m', k', hq⟩ | ⟨d', k', m', ms', hq, hm'⟩
    · obtain ⟨v, hv, hv'⟩ := diamond_send_recv hpq.symm hq hp hm hu ht
      exact ⟨v, hv', hv⟩
    · rw [step_recv hp hm] at ht
      rw [step_recv hq hm'] at hu
      cases ht
      cases hu
      have hkey : (p, d) ≠ (q, d') := fun h => hpq (Prod.mk.inj h).1
      have htq : Function.update c.proc p (k m) q = .recv d' k' := by
        rw [Function.update_of_ne hpq.symm]
        exact hq
      have hup : Function.update c.proc q (k' m') p = .recv d k := by
        rw [Function.update_of_ne hpq]
        exact hp
      have htm : Function.update c.inbox (p, d) ms (q, d') = m' :: ms' := by
        rw [Function.update_of_ne hkey.symm]
        exact hm'
      have hum : Function.update c.inbox (q, d') ms' (p, d) = m :: ms := by
        rw [Function.update_of_ne hkey]
        exact hm
      refine ⟨_, step_recv htq htm, ?_⟩
      rw [step_recv hup hum]
      simp only [Option.some.injEq, Config.mk.injEq]
      exact ⟨Function.update_comm hpq.symm _ _ _, Function.update_comm hkey.symm _ _ _⟩

/-- The processes have all returned, and no message is in flight. -/
def returned (r : P → α) : Config P M α := start fun p => .pure (r p)

theorem terminal_of_pure {c : Config P M α} (h : ∀ p, ∃ a, c.proc p = .pure a) :
    Transition.Terminal (step next) c := by
  intro p
  obtain ⟨a, ha⟩ := h p
  unfold step
  rw [ha]

theorem terminal_returned (r : P → α) :
    Transition.Terminal (step next) (returned r : Config P M α) :=
  terminal_of_pure fun p => ⟨r p, rfl⟩

/-- Some run of the processes ends with the results `r`. -/
def Completes (next : Equiv.Perm P) (c : P → Process M α) (r : P → α) : Prop :=
  Transition.Reaches (step next) (start c) (returned r)

/-- Whatever the order of the steps is, the processes return after boundedly many steps, with results
that meet `Q`, and no message is left over. -/
def Settles (next : Equiv.Perm P) (c : P → Process M α) (Q : (P → α) → Prop) : Prop :=
  ∃ n, ∀ as t, Transition.run (step next) (start c) as = some t →
    as.length ≤ n ∧ (Transition.Terminal (step next) t → ∃ r, t = returned r ∧ Q r)

theorem Settles.mono {c : P → Process M α} {Q Q' : (P → α) → Prop} (h : Settles next c Q)
    (hQ : ∀ r, Q r → Q' r) : Settles next c Q' := by
  obtain ⟨n, hn⟩ := h
  refine ⟨n, fun as t has => ⟨(hn as t has).1, fun ht => ?_⟩⟩
  obtain ⟨r, hr, hq⟩ := (hn as t has).2 ht
  exact ⟨r, hr, hQ r hq⟩

/-- One complete run decides all of them. -/
theorem Completes.settles {c : P → Process M α} {r : P → α} {Q : (P → α) → Prop}
    (h : Completes next c r) (hQ : Q r) : Settles next c Q := by
  obtain ⟨as, has⟩ := h
  refine ⟨as.length, fun bs t hbs => ⟨?_, fun ht => ⟨r, ?_, hQ⟩⟩⟩
  · obtain ⟨cs, hlen, -⟩ := diamond.descent (terminal_returned r) has hbs
    omega
  · exact diamond.terminal_unique ht (terminal_returned r) ⟨bs, hbs⟩ ⟨as, has⟩

/-- When all processes have returned, they have returned the results of every complete run. -/
theorem Completes.unique {c : P → Process M α} {r : P → α} (h : Completes next c r)
    {t : Config P M α} (ht : Transition.Reaches (step next) (start c) t)
    (hdone : ∀ p, ∃ a, t.proc p = .pure a) : t = returned r :=
  diamond.terminal_unique (terminal_of_pure hdone) (terminal_returned r) ht h

/-- Continue every process with its own continuation. -/
def Config.bind (c : Config P M α) (k : P → α → Process M β) : Config P M β :=
  ⟨fun p => (c.proc p).bind (k p), c.inbox⟩

theorem step_bind {c t : Config P M α} {p : P} (k : P → α → Process M β)
    (h : step next c p = some t) : step next (c.bind k) p = some (t.bind k) := by
  have hproc : ∀ x : Process M α, (fun q => (Function.update c.proc p x q).bind (k q)) =
      Function.update (c.bind k).proc p (x.bind (k p)) := by
    intro x
    funext q
    by_cases hq : q = p
    · subst hq
      simp
    · simp [Function.update_of_ne hq, Config.bind]
  rcases step_cases h with ⟨d, m, x, hp⟩ | ⟨d, x, m, ms, hp, hm⟩
  · rw [step_send hp] at h
    cases h
    have hp' : (c.bind k).proc p = .send d m (x.bind (k p)) := by
      show (c.proc p).bind (k p) = _
      rw [hp]
      rfl
    rw [step_send hp']
    simp only [Config.bind] at hproc ⊢
    rw [hproc]
  · rw [step_recv hp hm] at h
    cases h
    have hp' : (c.bind k).proc p = .recv d fun m => (x m).bind (k p) := by
      show (c.proc p).bind (k p) = _
      rw [hp]
      rfl
    have hm' : (c.bind k).inbox (p, d) = m :: ms := hm
    rw [step_recv hp' hm']
    simp only [Config.bind] at hproc ⊢
    rw [hproc]

theorem reaches_bind {c t : Config P M α} (k : P → α → Process M β)
    (h : Transition.Reaches (step next) c t) :
    Transition.Reaches (step next) (c.bind k) (t.bind k) := by
  obtain ⟨as, has⟩ := h
  induction as generalizing c with
  | nil =>
    cases has
    exact .refl _
  | cons a as ih =>
    obtain ⟨u, hu, hrest⟩ := Option.bind_eq_some_iff.mp has
    exact (Transition.Reaches.single (step_bind k hu)).trans (ih hrest)

/-- Processes that complete go on with their results. -/
theorem Completes.reaches_bind {c : P → Process M α} {r : P → α} (h : Completes next c r)
    (k : P → α → Process M β) :
    Transition.Reaches (step next) (start fun p => (c p).bind (k p)) (start fun p => k p (r p)) :=
  Network.reaches_bind k h

theorem Completes.bind {c : P → Process M α} {r : P → α} {k : P → α → Process M β} {r' : P → β}
    (h : Completes next c r) (h' : Completes next (fun p => k p (r p)) r') :
    Completes next (fun p => (c p).bind (k p)) r' :=
  (h.reaches_bind k).trans h'

theorem Completes.pure (r : P → α) : Completes next (fun p => (.pure (r p) : Process M α)) r :=
  .refl _

/-- One message is passed to the next process. -/
theorem reaches_pass {c : P → Process M α} {p : P} (hne : next p ≠ p) {m : M} {k : Process M α}
    {k' : M → Process M α} (hp : c p = .send .next m k) (hq : c (next p) = .recv .prev k') :
    Transition.Reaches (step next) (start c)
      (start (Function.update (Function.update c p k) (next p) (k' m))) := by
  have hsend : step next (start c) p = _ := step_send hp
  refine (Transition.Reaches.single hsend).trans (.single (a := next p) ?_)
  rw [step_recv (d := .prev) (k := k') (m := m) (l := [])]
  · simp only [start, peer, Dir.flip, Function.update_idem]
    rw [Function.update_eq_self_iff.mpr rfl]
  · show Function.update c p k (next p) = _
    rw [Function.update_of_ne hne]
    exact hq
  · simp [start, peer, Dir.flip]

/-- Two neighbours send each other a message and then receive it. -/
theorem reaches_swap {c : P → Process M α} {p : P} (hne : next p ≠ p) {m m' : M}
    {k k' : M → Process M α} (hp : c p = .send .next m (.recv .next k))
    (hq : c (next p) = .send .prev m' (.recv .prev k')) :
    Transition.Reaches (step next) (start c)
      (start (Function.update (Function.update c p (k m')) (next p) (k' m))) := by
  have hkey : (p, Dir.next) ≠ (next p, Dir.prev) := fun h => hne (Prod.mk.inj h).1.symm
  have hsymm : next.symm (next p) = p := next.symm_apply_apply p
  -- both messages are sent
  have hsend : Transition.Reaches (step next) (start c)
      ⟨Function.update c p (.recv .next k), Function.update (start c).inbox (next p, .prev) [m]⟩ :=
    .single (step_send (c := start c) hp)
  have hq' : Function.update c p (.recv .next k) (next p) = .send .prev m' (.recv .prev k') := by
    rw [Function.update_of_ne hne]
    exact hq
  have hsend' : Transition.Reaches (step next)
      ⟨Function.update c p (.recv .next k), Function.update (start c).inbox (next p, .prev) [m]⟩
      ⟨Function.update (Function.update c p (.recv .next k)) (next p) (.recv .prev k'),
        Function.update (Function.update (start c).inbox (next p, .prev) [m]) (p, .next) [m']⟩ := by
    refine .single (a := next p) ?_
    rw [step_send hq']
    simp [peer, hsymm, Dir.flip, start]
  -- both messages are received
  have hrecv : Transition.Reaches (step next)
      ⟨Function.update (Function.update c p (.recv .next k)) (next p) (.recv .prev k'),
        Function.update (Function.update (start c).inbox (next p, .prev) [m]) (p, .next) [m']⟩
      ⟨Function.update (Function.update c p (k m')) (next p) (.recv .prev k'),
        Function.update (start c).inbox (next p, .prev) [m]⟩ := by
    refine .single (a := p) ?_
    rw [step_recv (d := .next) (k := k) (m := m') (l := [])]
    · simp only [Option.some.injEq, Config.mk.injEq, Function.update_idem]
      constructor
      · rw [Function.update_comm hne, Function.update_idem]
      · rw [Function.update_eq_self_iff, Function.update_of_ne hkey]
        rfl
    · simp [Function.update_of_ne hne.symm]
    · simp
  refine hsend.trans (hsend'.trans (hrecv.trans (.single (a := next p) ?_)))
  rw [step_recv (d := .prev) (k := k') (m := m) (l := [])]
  · simp only [Function.update_idem, start]
    rw [Function.update_eq_self_iff.mpr rfl]
  · simp
  · simp

section Rounds

omit [DecidableEq P] in
theorem peer_peer_flip (p : P) (d : Dir) : peer next (peer next p d) d.flip = p := by
  cases d with
  | next => exact next.symm_apply_apply p
  | prev => exact next.apply_symm_apply p

/-- The network in the middle of a round of sends: the processes of `s` have sent their message. -/
def sentConfig (next : Equiv.Perm P) (d : Dir) (m : P → M) (k : P → Process M α) (inbox : P × Dir → List M)
    (s : Finset P) : Config P M α where
  proc p := if p ∈ s then k p else .send d (m p) (k p)
  inbox key :=
    if key.2 = d.flip ∧ peer next key.1 d.flip ∈ s then inbox key ++ [m (peer next key.1 d.flip)]
    else inbox key

theorem reaches_sent (d : Dir) (m : P → M) (k : P → Process M α) (inbox : P × Dir → List M) (s : Finset P) :
    Transition.Reaches (step next) (sentConfig next d m k inbox ∅) (sentConfig next d m k inbox s) := by
  induction s using Finset.induction_on with
  | empty => exact .refl _
  | insert p s hp ih =>
    refine ih.trans (.single (a := p) ?_)
    rw [step_send (d := d) (m := m p) (k := k p) (by simp [sentConfig, hp])]
    simp only [Option.some.injEq]
    congr
    · funext q
      by_cases hq : q = p
      · subst hq
        simp [sentConfig]
      · simp [sentConfig, hq]
    · funext ⟨q, d'⟩
      by_cases hkey : (q, d') = (peer next p d, d.flip)
      · cases hkey
        simp [sentConfig, peer_peer_flip, hp]
      · rw [Function.update_of_ne hkey]
        simp only [sentConfig, Finset.mem_insert]
        by_cases hd : d' = d.flip
        · have hne : peer next q d.flip ≠ p := by
            rintro rfl
            have hq : peer next (peer next q d.flip) d.flip.flip = q := peer_peer_flip q d.flip
            rw [Dir.flip_flip] at hq
            exact hkey (Prod.ext hq.symm hd)
          simp [hd, hne]
        · simp [hd]

/-- The network in the middle of a round of receives: the processes of `r` have received their message. -/
def receivedConfig (d : Dir) (m : P → M) (k : P → M → Process M α) (inbox : P × Dir → List M)
    (r : Finset P) : Config P M α where
  proc p := if p ∈ r then k p (m p) else .recv d (k p)
  inbox key := if key.2 = d ∧ key.1 ∉ r then m key.1 :: inbox key else inbox key

theorem reaches_received (d : Dir) (m : P → M) (k : P → M → Process M α) (inbox : P × Dir → List M)
    (r : Finset P) :
    Transition.Reaches (step next) (receivedConfig d m k inbox ∅) (receivedConfig d m k inbox r) := by
  induction r using Finset.induction_on with
  | empty => exact .refl _
  | insert p r hp ih =>
    refine ih.trans (.single (a := p) ?_)
    rw [step_recv (d := d) (k := k p) (m := m p) (l := inbox (p, d)) (by simp [receivedConfig, hp])
      (by simp [receivedConfig, hp])]
    simp only [Option.some.injEq]
    congr
    · funext q
      by_cases hq : q = p
      · subst hq
        simp [receivedConfig]
      · simp [receivedConfig, hq]
    · funext ⟨q, d'⟩
      by_cases hkey : (q, d') = (p, d)
      · cases hkey
        simp [receivedConfig]
      · rw [Function.update_of_ne hkey]
        by_cases hd : d' = d
        · have hq : q ≠ p := fun hq => hkey (Prod.ext hq hd)
          simp [receivedConfig, hd, hq]
        · simp [receivedConfig, hd]

variable [Fintype P]

/-- Every process sends a message in the same direction. -/
theorem reaches_sendAll (d : Dir) (m : P → M) (k : P → Process M α) (inbox : P × Dir → List M) :
    Transition.Reaches (step next) ⟨fun p => .send d (m p) (k p), inbox⟩
      ⟨k, fun key => if key.2 = d.flip then inbox key ++ [m (peer next key.1 d.flip)] else inbox key⟩ := by
  have h : Transition.Reaches (step next) _ _ := reaches_sent d m k inbox Finset.univ
  simp only [sentConfig, Finset.notMem_empty, Finset.mem_univ, and_false, and_true, if_false, if_true] at h
  exact h

/-- Every process receives a message from the same direction. -/
theorem reaches_recvAll (d : Dir) (m : P → M) (k : P → M → Process M α) (inbox : P × Dir → List M) :
    Transition.Reaches (step next)
      ⟨fun p => .recv d (k p), fun key => if key.2 = d then m key.1 :: inbox key else inbox key⟩
      ⟨fun p => k p (m p), inbox⟩ := by
  have h : Transition.Reaches (step next) _ _ := reaches_received d m k inbox Finset.univ
  simp only [receivedConfig, Finset.notMem_empty, Finset.mem_univ, not_true_eq_false, not_false_eq_true, and_false,
    and_true, if_false, if_true] at h
  exact h

/-- Every process sends a message to the next one and receives one from the previous one. -/
theorem reaches_shift (m : P → M) (k : P → M → Process M α) :
    Transition.Reaches (step next) (start fun p => .send .next (m p) (.recv .prev (k p)))
      (start fun p => k p (m (next.symm p))) :=
  (reaches_sendAll .next m (fun p => .recv .prev (k p)) fun _ => []).trans
    (reaches_recvAll .prev (fun p => m (next.symm p)) k fun _ => [])

/-- Every process sends a message to each neighbour and then receives one from each, first from the direction `d`.
What it does with the first message leads to the second one. -/
theorem reaches_exchange_of {d : Dir} {m : Dir → P → M} {g k : P → M → Process M α}
    (hk : ∀ p, g p (m d.flip (peer next p d)) = .recv d.flip (k p)) :
    Transition.Reaches (step next) (start fun p => .send .next (m .next p) (.send .prev (m .prev p) (.recv d (g p))))
      (start fun p => k p (m d (peer next p d.flip))) := by
  have hsent : Transition.Reaches (step next) _ _ :=
    (reaches_sendAll .next (m .next) (fun p => .send .prev (m .prev p) (.recv d (g p))) fun _ => []).trans
      (reaches_sendAll .prev (m .prev) (fun p => .recv d (g p)) _)
  have hfirst : Transition.Reaches (step next) _ _ :=
    reaches_recvAll d (fun p => m d.flip (peer next p d)) g
      fun key => if key.2 = d.flip then [m d (peer next key.1 d.flip)] else []
  simp only [hk] at hfirst
  have hreceived := hfirst.trans (reaches_recvAll d.flip (fun p => m d (peer next p d.flip)) k fun _ => [])
  refine hsent.trans ?_
  convert hreceived using 2
  · funext ⟨p, d'⟩
    cases d <;> cases d' <;> rfl
  · rfl
  · rfl

/-- The same when the first message is only kept. -/
theorem reaches_exchange (d : Dir) (m : Dir → P → M) (k : P → M → M → Process M α) :
    Transition.Reaches (step next)
      (start fun p => .send .next (m .next p) (.send .prev (m .prev p) (.recv d fun a => .recv d.flip (k p a))))
      (start fun p => k p (m d.flip (peer next p d)) (m d (peer next p d.flip))) :=
  reaches_exchange_of fun _ => rfl

theorem Completes.announce (m : P → M) (f : P → M → M → α) :
    Completes next (fun p => .announce (m p) (f p)) fun p => f p (m (next p)) (m (next.symm p)) :=
  reaches_exchange .next (fun _ => m) fun p a b => .pure (f p a b)

end Rounds

section Relabel

/-- Rename the processes: the process `p` takes the place of `e p`. -/
def Config.relabel (e : Equiv.Perm P) (c : Config P M α) : Config P M α :=
  ⟨fun p => c.proc (e p), fun key => c.inbox (e key.1, key.2)⟩

omit [DecidableEq P] in
theorem peer_comm {e : Equiv.Perm P} (he : ∀ p, e (next p) = next (e p)) (p : P) (d : Dir) :
    e (peer next p d) = peer next (e p) d := by
  cases d with
  | next => exact he p
  | prev =>
    show e (next.symm p) = next.symm (e p)
    rw [Equiv.eq_symm_apply, ← he, next.apply_symm_apply]

theorem step_relabel {e : Equiv.Perm P} (he : ∀ p, e (next p) = next (e p)) {c t : Config P M α} {p : P}
    (h : step next c (e p) = some t) : step next (c.relabel e) p = some (t.relabel e) := by
  have hproc : ∀ x : Process M α, (fun q => Function.update c.proc (e p) x (e q)) =
      Function.update (c.relabel e).proc p x := by
    intro x
    funext q
    by_cases hq : q = p
    · subst hq
      simp
    · simp [Function.update_of_ne hq, e.injective.ne hq, Config.relabel]
  have hinbox : ∀ q d (ms : List M), (fun key : P × Dir => Function.update c.inbox (e q, d) ms (e key.1, key.2)) =
      Function.update (c.relabel e).inbox (q, d) ms := by
    intro q d ms
    funext ⟨q', d'⟩
    by_cases hq : (q', d') = (q, d)
    · cases hq
      simp
    · have hne : (e q', d') ≠ (e q, d) := by
        intro h
        obtain ⟨hq', rfl⟩ := Prod.mk.inj h
        exact hq (congrArg (·, d') (e.injective hq'))
      simp [Function.update_of_ne hq, Function.update_of_ne hne, Config.relabel]
  rcases step_cases h with ⟨d, m, x, hp⟩ | ⟨d, x, m, ms, hp, hm⟩
  · rw [step_send hp] at h
    cases h
    have hp' : (c.relabel e).proc p = .send d m x := hp
    rw [step_send hp']
    simp only [Config.relabel, ← peer_comm he] at hproc hinbox ⊢
    rw [hproc, hinbox]
  · rw [step_recv hp hm] at h
    cases h
    have hp' : (c.relabel e).proc p = .recv d x := hp
    have hm' : (c.relabel e).inbox (p, d) = m :: ms := hm
    rw [step_recv hp' hm']
    simp only [Config.relabel] at hproc hinbox ⊢
    rw [hproc, hinbox]

theorem reaches_relabel {e : Equiv.Perm P} (he : ∀ p, e (next p) = next (e p)) {c t : Config P M α}
    (h : Transition.Reaches (step next) c t) :
    Transition.Reaches (step next) (c.relabel e) (t.relabel e) := by
  obtain ⟨as, has⟩ := h
  induction as generalizing c with
  | nil =>
    cases has
    exact .refl _
  | cons a as ih =>
    obtain ⟨u, hu, hrest⟩ := Option.bind_eq_some_iff.mp has
    have hstep : step next c (e (e.symm a)) = some u := by
      rw [e.apply_symm_apply]
      exact hu
    exact (Transition.Reaches.single (step_relabel he hstep)).trans (ih hrest)

/-- Whether processes complete does not depend on which process of the ring is the first. -/
theorem Completes.relabel {e : Equiv.Perm P} (he : ∀ p, e (next p) = next (e p))
    {c : P → Process M α} {r : P → α} (h : Completes next c r) :
    Completes next (fun p => c (e p)) fun p => r (e p) :=
  reaches_relabel he h

end Relabel

/-! ## Processes that spin less -/

/-- The processes of `c` do what those of `c'` do, as far as they do not spin. -/
def Config.Le (c c' : Config P M α) : Prop := (∀ p, Process.Le (c.proc p) (c'.proc p)) ∧ c.inbox = c'.inbox

theorem proc_update_le {c c' : Config P M α} (h : c.Le c') {k k' : Process M α} (hk : Process.Le k k')
    (p q : P) : Process.Le (Function.update c.proc p k q) (Function.update c'.proc p k' q) := by
  by_cases hq : q = p
  · subst hq
    rw [Function.update_self, Function.update_self]
    exact hk
  · rw [Function.update_of_ne hq, Function.update_of_ne hq]
    exact h.1 q

theorem step_le {c c' t : Config P M α} {p : P} (h : c.Le c') (ht : step next c p = some t) :
    ∃ t', step next c' p = some t' ∧ t.Le t' := by
  have hle := h.1 p
  rcases step_cases ht with ⟨d, m, k, hp⟩ | ⟨d, k, m, ms, hp, hm⟩
  · rw [step_send hp] at ht
    cases ht
    rw [hp] at hle
    generalize hq : c'.proc p = y at hle
    cases hle with
    | send _ _ hk =>
      refine ⟨_, step_send hq, proc_update_le h hk p, ?_⟩
      dsimp only
      rw [h.2]
  · rw [step_recv hp hm] at ht
    cases ht
    rw [hp] at hle
    generalize hq : c'.proc p = y at hle
    cases hle with
    | recv _ hk =>
      rw [h.2] at hm
      refine ⟨_, step_recv hq hm, proc_update_le h (hk m) p, ?_⟩
      dsimp only
      rw [h.2]

/-- Processes that complete do so when they spin less. -/
theorem Completes.of_le {c c' : P → Process M α} {r : P → α} (hle : ∀ p, Process.Le (c p) (c' p))
    (h : Completes next c r) : Completes next c' r := by
  have hrun : ∀ (as : List P) (u u' : Config P M α), u.Le u' →
      Transition.run (step next) u as = some (returned r) →
      Transition.run (step next) u' as = some (returned r) := by
    intro as
    induction as with
    | nil =>
      intro u u' hu has
      cases has
      have hproc : ∀ p, u'.proc p = .pure (r p) := by
        intro p
        have hp := hu.1 p
        generalize u'.proc p = y at hp
        cases hp with
        | pure => rfl
      obtain ⟨proc, inbox⟩ := u'
      obtain rfl : proc = fun p => .pure (r p) := funext hproc
      obtain rfl : (fun _ => []) = inbox := hu.2
      rfl
    | cons a as ih =>
      intro u u' hu has
      obtain ⟨t, ht, hrest⟩ := Option.bind_eq_some_iff.mp has
      obtain ⟨t', ht', hle'⟩ := step_le hu ht
      unfold Transition.run
      rw [ht']
      exact ih t t' hle' hrest
  obtain ⟨as, has⟩ := h
  exact ⟨as, hrun as (start c) (start c') ⟨hle, rfl⟩ has⟩

/-! ## Processes that do not return -/

section Starved

/-- Processes that settle complete. -/
theorem Settles.completes {c : P → Process M α} {Q : (P → α) → Prop} (h : Settles next c Q) :
    ∃ r, Completes next c r ∧ Q r := by
  obtain ⟨n, hn⟩ := h
  -- a run that is not over can be made longer, and no run is longer than `n`
  have hmore : ∀ k as t, as.length + k = n → Transition.run (step next) (start c) as = some t →
      ∃ r, Completes next c r ∧ Q r := by
    intro k
    induction k with
    | zero =>
      intro as t hlen has
      have hterm : Transition.Terminal (step next) t := by
        intro p
        rw [Option.eq_none_iff_forall_ne_some]
        intro u hu
        have hrun : Transition.run (step next) (start c) (as ++ [p]) = some u := by
          rw [Transition.run_append, has]
          simp [Transition.run, hu]
        have hle := (hn _ _ hrun).1
        rw [List.length_append, List.length_singleton] at hle
        omega
      obtain ⟨r, rfl, hq⟩ := (hn as t has).2 hterm
      exact ⟨r, ⟨as, has⟩, hq⟩
    | succ k ih =>
      intro as t hlen has
      by_cases hterm : Transition.Terminal (step next) t
      · obtain ⟨r, rfl, hq⟩ := (hn as t has).2 hterm
        exact ⟨r, ⟨as, has⟩, hq⟩
      · unfold Transition.Terminal at hterm
        push Not at hterm
        obtain ⟨p, hp⟩ := hterm
        obtain ⟨u, hu⟩ := Option.ne_none_iff_exists'.mp hp
        refine ih (as ++ [p]) u (by rw [List.length_append, List.length_singleton]; omega) ?_
        rw [Transition.run_append, has]
        simp [Transition.run, hu]
  exact hmore n [] (start c) (by simp) rfl

/-- A complete run decides what the processes settle on. -/
theorem Completes.settles_iff {c : P → Process M α} {r : P → α} (h : Completes next c r) {Q : (P → α) → Prop} :
    Settles next c Q ↔ Q r := by
  constructor
  · intro hq
    obtain ⟨r', hr', hq'⟩ := hq.completes
    have heq : (returned r' : Config P M α) = returned r := h.unique hr' fun p => ⟨r' p, rfl⟩
    have hproc : ∀ p, (Process.pure (r' p) : Process M α) = Process.pure (r p) :=
      fun p => congrFun (congrArg Config.proc heq) p
    have hsame : r' = r := funext fun p => Process.pure.inj (hproc p)
    exact hsame ▸ hq'
  · exact h.settles

/-- All processes have returned. -/
def Done (t : Config P M α) : Prop := ∀ p, ∃ a, t.proc p = .pure a

/-- Whatever the order of the steps is, there is a process that does not return. -/
def NeverDone (next : Equiv.Perm P) (c : Config P M α) : Prop :=
  ∀ t, Transition.Reaches (step next) c t → ¬ Done t

/-- It is enough to look at the runs from a configuration that can be reached. -/
theorem NeverDone.of_reaches {c u : Config P M α} (h : Transition.Reaches (step next) c u)
    (hu : NeverDone next u) : NeverDone next c := by
  intro t ht hdone
  obtain ⟨as, has⟩ := ht
  obtain ⟨bs, hbs⟩ := h
  obtain ⟨cs, -, hcs⟩ := diamond.descent (terminal_of_pure hdone) has hbs
  exact hu t ⟨cs, hcs⟩ hdone

theorem Completes.not_neverDone {c : P → Process M α} {r : P → α} (h : Completes next c r) :
    ¬ NeverDone next (start c) := by
  intro hnever
  exact hnever _ h fun p => ⟨r p, rfl⟩

/-- The process receives a message from the direction `d` before it returns. -/
def Blocked (d : Dir) : Process M α → Prop
  | .pure _ => False
  | .send _ _ k => Blocked d k
  | .recv d' k => d' = d ∨ ∀ m, Blocked d (k m)
  | .spin => True

/-- The process does not send messages in the direction `d`. -/
def Silent (d : Dir) : Process M α → Prop
  | .pure _ => True
  | .send d' _ k => d' ≠ d ∧ Silent d k
  | .recv _ k => ∀ m, Silent d (k m)
  | .spin => True

variable {p : P} {d : Dir}

/-- A process waits for a neighbour that does not send. -/
structure Starved (next : Equiv.Perm P) (p : P) (d : Dir) (c : Config P M α) : Prop where
  blocked : Blocked d (c.proc p)
  silent : Silent d.flip (c.proc (peer next p d))
  empty : c.inbox (p, d) = []

omit [DecidableEq P] in
theorem peer_ne (hne : ∀ p, next p ≠ p) (p : P) (d : Dir) : peer next p d ≠ p := by
  cases d with
  | next => exact hne p
  | prev =>
    intro h
    exact hne p ((Equiv.eq_symm_apply next).mp h.symm)

theorem Starved.send (hne : ∀ p, next p ≠ p) {c : Config P M α} {a : P} {d' : Dir} {m : M}
    {k : Process M α} (ha : c.proc a = .send d' m k) (h : Starved next p d c) :
    Starved next p d ⟨Function.update c.proc a k,
      Function.update c.inbox (peer next a d', d'.flip) (c.inbox (peer next a d', d'.flip) ++ [m])⟩ := by
  have hpeer := peer_ne hne p d
  -- the message goes to another queue: only the silent neighbour could send to this one
  have hkey : (p, d) ≠ (peer next a d', d'.flip) := by
    intro hkey
    obtain ⟨hp, hd⟩ := Prod.mk.inj hkey
    have haq : a = peer next p d := by
      rw [hp, hd]
      exact (peer_peer_flip a d').symm
    have hsilent := h.silent
    rw [← haq, ha] at hsilent
    apply hsilent.1
    rw [hd]
    cases d' <;> rfl
  constructor
  · show Blocked d (Function.update c.proc a k p)
    by_cases hap : p = a
    · subst hap
      have hblocked := h.blocked
      rw [ha] at hblocked
      rw [Function.update_self]
      exact hblocked
    · rw [Function.update_of_ne hap]
      exact h.blocked
  · show Silent d.flip (Function.update c.proc a k (peer next p d))
    by_cases haq : peer next p d = a
    · have hsilent := h.silent
      rw [haq, ha] at hsilent
      rw [haq, Function.update_self]
      exact hsilent.2
    · rw [Function.update_of_ne haq]
      exact h.silent
  · show Function.update c.inbox _ _ (p, d) = []
    rw [Function.update_of_ne hkey]
    exact h.empty

theorem Starved.recv {c : Config P M α} {a : P} {d' : Dir} {m : M} {ms : List M}
    {k : M → Process M α} (ha : c.proc a = .recv d' k) (hm : c.inbox (a, d') = m :: ms)
    (h : Starved next p d c) :
    Starved next p d ⟨Function.update c.proc a (k m), Function.update c.inbox (a, d') ms⟩ := by
  have hkey : (p, d) ≠ (a, d') := by
    intro hkey
    have hempty := h.empty
    rw [hkey, hm] at hempty
    cases hempty
  constructor
  · show Blocked d (Function.update c.proc a (k m) p)
    by_cases hap : p = a
    · subst hap
      have hblocked := h.blocked
      rw [ha] at hblocked
      rw [Function.update_self]
      rcases hblocked with hd | hk
      · subst hd
        exact absurd rfl hkey
      · exact hk m
    · rw [Function.update_of_ne hap]
      exact h.blocked
  · show Silent d.flip (Function.update c.proc a (k m) (peer next p d))
    by_cases haq : peer next p d = a
    · have hsilent := h.silent
      rw [haq, ha] at hsilent
      rw [haq, Function.update_self]
      exact hsilent m
    · rw [Function.update_of_ne haq]
      exact h.silent
  · show Function.update c.inbox (a, d') ms (p, d) = []
    rw [Function.update_of_ne hkey]
    exact h.empty

theorem Starved.step (hne : ∀ p, next p ≠ p) {c t : Config P M α} {a : P}
    (ht : Network.step next c a = some t) (h : Starved next p d c) : Starved next p d t := by
  rcases step_cases ht with ⟨d', m, k, ha⟩ | ⟨d', k, m, ms, ha, hm⟩
  · rw [step_send ha] at ht
    cases ht
    exact h.send hne ha
  · rw [step_recv ha hm] at ht
    cases ht
    exact h.recv ha hm

/-- A process that waits for a silent neighbour does not return. -/
theorem Starved.neverDone (hne : ∀ p, next p ≠ p) {c : Config P M α} (h : Starved next p d c) :
    NeverDone next c := by
  rintro t ⟨as, has⟩ hdone
  have hblocked := (Transition.run_invariant (fun s a u => Starved.step hne) has h).blocked
  obtain ⟨a, ha⟩ := hdone p
  rw [ha] at hblocked
  exact hblocked

/-- A step leaves the other processes as they are. -/
theorem proc_of_step {c t : Config P M α} {p q : P} (h : Network.step next c p = some t) (hq : q ≠ p) :
    t.proc q = c.proc q := by
  rcases step_cases h with ⟨d, m, k, hp⟩ | ⟨d, k, m, ms, hp, hm⟩
  · rw [step_send hp] at h
    cases h
    exact Function.update_of_ne hq _ _
  · rw [step_recv hp hm] at h
    cases h
    exact Function.update_of_ne hq _ _

theorem neverDone_of_spin {c : Config P M α} (hp : c.proc p = .spin) : NeverDone next c := by
  rintro t ⟨as, has⟩ hdone
  have hspin : t.proc p = .spin := by
    refine Transition.run_invariant (I := fun s => s.proc p = .spin) (fun s a u hu hs => ?_) has hp
    have hpa : p ≠ a := by
      rintro rfl
      rcases step_cases hu with ⟨d, m, k, hk⟩ | ⟨d, k, m, ms, hk, -⟩
      · rw [hs] at hk
        cases hk
      · rw [hs] at hk
        cases hk
    rw [proc_of_step hu hpa, hs]
  obtain ⟨a, ha⟩ := hdone p
  rw [hspin] at ha
  cases ha

/-- A step of processes that go on with a local computation is one of the processes themselves. -/
theorem step_of_bind_pure {c : Config P M α} {t : Config P M β} {k : P → α → Process M β}
    (hk : ∀ p a, ∃ b, k p a = .pure b) (h : Network.step next (c.bind k) p = some t) :
    ∃ c', Network.step next c p = some c' ∧ t = c'.bind k := by
  cases hc : Network.step next c p with
  | some c' =>
    rw [step_bind k hc] at h
    exact ⟨c', rfl, (Option.some.inj h).symm⟩
  | none =>
    have hproc : (c.bind k).proc p = (c.proc p).bind (k p) := rfl
    cases hp : c.proc p with
    | pure a =>
      obtain ⟨b, hb⟩ := hk p a
      have hpure : (c.bind k).proc p = .pure b := by rw [hproc, hp]; exact hb
      unfold Network.step at h
      rw [hpure] at h
      cases h
    | spin =>
      have hspin : (c.bind k).proc p = .spin := by rw [hproc, hp]; rfl
      unfold Network.step at h
      rw [hspin] at h
      cases h
    | send d m x =>
      rw [step_send hp] at hc
      cases hc
    | recv d x =>
      cases hm : c.inbox (p, d) with
      | cons m ms =>
        rw [step_recv hp hm] at hc
        cases hc
      | nil =>
        have hrecv : (c.bind k).proc p = .recv d fun m => (x m).bind (k p) := by rw [hproc, hp]; rfl
        have hempty : (c.bind k).inbox (p, d) = [] := hm
        unfold Network.step at h
        rw [hrecv] at h
        dsimp only at h
        rw [hempty] at h
        cases h

/-- Local computations at the end do not make processes return. -/
theorem NeverDone.bind_pure {c : Config P M α} {k : P → α → Process M β} (hk : ∀ p a, ∃ b, k p a = .pure b)
    (h : NeverDone next c) : NeverDone next (c.bind k) := by
  rintro t ⟨as, has⟩ hdone
  have hsim : ∃ c', Transition.Reaches (Network.step next) c c' ∧ t = c'.bind k := by
    refine Transition.run_invariant
      (I := fun t => ∃ c', Transition.Reaches (Network.step next) c c' ∧ t = c'.bind k) ?_ has ⟨c, .refl c, rfl⟩
    rintro s a u hu ⟨c', hc', rfl⟩
    obtain ⟨c'', hstep, rfl⟩ := step_of_bind_pure hk hu
    exact ⟨c'', hc'.trans (.single hstep), rfl⟩
  obtain ⟨c', hc', rfl⟩ := hsim
  refine h c' hc' fun p => ?_
  obtain ⟨b, hb⟩ := hdone p
  have hproc : (c'.proc p).bind (k p) = .pure b := hb
  cases hp : c'.proc p with
  | pure a => exact ⟨a, rfl⟩
  | spin =>
    rw [hp] at hproc
    cases hproc
  | send d m x =>
    rw [hp] at hproc
    cases hproc
  | recv d x =>
    rw [hp] at hproc
    cases hproc

/-- A process and the next one send to their next neighbours, and the next one receives the message. -/
theorem reaches_relay {c : P → Process M α} (hne : ∀ p, next p ≠ p) {m m' : M} {k : Process M α}
    {k' : M → Process M α} (hp : c p = .send .next m k) (hq : c (next p) = .send .next m' (.recv .prev k')) :
    Transition.Reaches (Network.step next) (start c)
      ⟨Function.update (Function.update c p k) (next p) (k' m),
        Function.update (start c).inbox (next (next p), .prev) [m']⟩ := by
  have hkey : (next (next p), Dir.prev) ≠ (next p, Dir.prev) := fun h => hne _ (Prod.mk.inj h).1
  have hsend : Transition.Reaches (Network.step next) (start c)
      ⟨Function.update c p k, Function.update (start c).inbox (next p, .prev) [m]⟩ :=
    .single (step_send (c := start c) hp)
  have hsend' : Network.step next
      ⟨Function.update c p k, Function.update (start c).inbox (next p, .prev) [m]⟩ (next p) =
      some ⟨Function.update (Function.update c p k) (next p) (.recv .prev k'),
        Function.update (Function.update (start c).inbox (next p, .prev) [m]) (next (next p), .prev) [m']⟩ := by
    rw [step_send (d := .next) (m := m') (k := .recv .prev k')]
    · simp only [peer, Dir.flip, Option.some.injEq, Config.mk.injEq, true_and]
      rw [Function.update_of_ne hkey]
      rfl
    · show Function.update c p k (next p) = _
      rw [Function.update_of_ne (hne p)]
      exact hq
  refine hsend.trans ((Transition.Reaches.single hsend').trans (.single (a := next p) ?_))
  rw [step_recv (d := .prev) (k := k') (m := m) (l := [])]
  · simp only [Option.some.injEq, Config.mk.injEq, Function.update_idem, true_and]
    have hself : Function.update (start c).inbox (next p, .prev) [] = (start c).inbox :=
      Function.update_eq_self_iff.mpr rfl
    rw [Function.update_comm hkey, Function.update_idem, hself]
  · exact Function.update_self _ _ _
  · show Function.update (Function.update _ _ _) _ _ (next p, Dir.prev) = _
    rw [Function.update_of_ne hkey.symm, Function.update_self]

end Starved

end Network

/-! ## Processes that end whatever they receive -/

namespace Process

variable {M α β : Type} {good P : α → Prop}

/-- The process sends and receives at most `n` messages. If it returns, then with a `good` result, whatever it
receives. -/
inductive Within (good : α → Prop) : Nat → Process M α → Prop where
  | pure {n : Nat} {a : α} : good a → Within good n (.pure a)
  | send {n : Nat} {d : Dir} {m : M} {k : Process M α} : Within good n k → Within good (n + 1) (.send d m k)
  | recv {n : Nat} {d : Dir} {k : M → Process M α} : (∀ m, Within good n (k m)) → Within good (n + 1) (.recv d k)

theorem Within.le {n n' : Nat} {x : Process M α} (h : Within good n x) (hle : n ≤ n') : Within good n' x := by
  induction h generalizing n' with
  | pure ha => exact .pure ha
  | send _ ih =>
    obtain ⟨k, rfl⟩ := Nat.exists_eq_add_of_le' hle
    exact .send (ih (Nat.le_add_left _ k))
  | recv _ ih =>
    obtain ⟨k, rfl⟩ := Nat.exists_eq_add_of_le' hle
    exact .recv fun m => ih m (Nat.le_add_left _ k)

theorem Within.mono {n : Nat} {x : Process M α} (h : Within P n x) (hP : ∀ a, P a → good a) : Within good n x := by
  induction h with
  | pure ha => exact .pure (hP _ ha)
  | send _ ih => exact .send ih
  | recv _ ih => exact .recv ih

theorem Within.bind {n m : Nat} {x : Process M α} {good : β → Prop} {f : α → Process M β} (h : Within P n x)
    (hf : ∀ a, P a → Within good m (f a)) : Within good (n + m) (x.bind f) := by
  induction h with
  | pure ha => exact (hf _ ha).le (Nat.le_add_left _ _)
  | send _ ih =>
    rw [Nat.add_right_comm]
    exact .send ih
  | recv _ ih =>
    rw [Nat.add_right_comm]
    exact .recv ih

/-- The process has returned a `good` result, or it sends or receives. -/
def Sound (good : α → Prop) : Process M α → Prop
  | .pure a => good a
  | .send _ _ _ => True
  | .recv _ _ => True
  | .spin => False

theorem Within.sound {n : Nat} {x : Process M α} (h : Within good n x) : Sound good x := by
  cases h with
  | pure ha => exact ha
  | send _ => trivial
  | recv _ => trivial

end Process

namespace Network

variable {P M α : Type} [DecidableEq P] {next : Equiv.Perm P} {good : α → Prop}

/-- Whatever the order of the steps is, there are boundedly many of them, and a process that returns has a `good`
result. At the end every process has returned or waits for a message. -/
def Answers (next : Equiv.Perm P) (c : P → Process M α) (good : α → Prop) : Prop :=
  ∃ n, ∀ as t, Transition.run (step next) (start c) as = some t →
    as.length ≤ n ∧ ∀ p, Process.Sound good (t.proc p)

/-- One step uses up one of the messages. -/
theorem within_step [Fintype P] {c t : Config P M α} {p : P} {n : P → Nat}
    (hc : ∀ q, Process.Within good (n q) (c.proc q)) (h : step next c p = some t) :
    ∃ n' : P → Nat, ∑ q, n' q + 1 = ∑ q, n q ∧ ∀ q, Process.Within good (n' q) (t.proc q) := by
  have hnext : ∃ m, n p = m + 1 ∧ Process.Within good m (t.proc p) := by
    have hp := hc p
    rcases step_cases h with ⟨d, m, k, hk⟩ | ⟨d, k, m, ms, hk, hm⟩
    · rw [step_send hk] at h
      cases h
      rw [hk] at hp
      dsimp only
      rw [Function.update_self]
      generalize n p = w at hp ⊢
      cases hp with
      | send hk' => exact ⟨_, rfl, hk'⟩
    · rw [step_recv hk hm] at h
      cases h
      rw [hk] at hp
      dsimp only
      rw [Function.update_self]
      generalize n p = w at hp ⊢
      cases hp with
      | recv hk' => exact ⟨_, rfl, hk' m⟩
  obtain ⟨m, hm, hwithin⟩ := hnext
  refine ⟨Function.update n p m, ?_, fun q => ?_⟩
  · rw [Finset.sum_update_of_mem (Finset.mem_univ p), Finset.sdiff_singleton_eq_erase,
      ← Finset.add_sum_erase Finset.univ n (Finset.mem_univ p), hm]
    omega
  · by_cases hq : q = p
    · subst hq
      rwa [Function.update_self]
    · rw [Function.update_of_ne hq, proc_of_step h hq]
      exact hc q

/-- Processes that end whatever they receive end in every network. -/
theorem answers_of_within [Fintype P] {c : P → Process M α} {n : P → Nat}
    (hc : ∀ p, Process.Within good (n p) (c p)) : Answers next c good := by
  have hrun : ∀ as (u t : Config P M α) (w : P → Nat), (∀ p, Process.Within good (w p) (u.proc p)) →
      Transition.run (step next) u as = some t → as.length ≤ ∑ p, w p ∧ ∀ p, Process.Sound good (t.proc p) := by
    intro as
    induction as with
    | nil =>
      intro u t w hu hrun
      cases hrun
      exact ⟨Nat.zero_le _, fun p => (hu p).sound⟩
    | cons a as ih =>
      intro u t w hu hrun
      obtain ⟨u', hu', hrest⟩ := Option.bind_eq_some_iff.mp hrun
      obtain ⟨w', hw', hwithin⟩ := within_step hu hu'
      obtain ⟨hlen, hsound⟩ := ih u' t w' hwithin hrest
      rw [List.length_cons]
      exact ⟨by omega, hsound⟩
  exact ⟨_, fun as t => hrun as (start c) t n hc⟩

theorem sound_of_step {c t : Config P M α} {p q : P} (h : step next c p = some t) (ht : Process.Sound good (t.proc q)) :
    Process.Sound good (c.proc q) := by
  by_cases hq : q = p
  · subst hq
    rcases step_cases h with ⟨d, m, k, hk⟩ | ⟨d, k, m, ms, hk, -⟩
    · rw [hk]
      trivial
    · rw [hk]
      trivial
  · rwa [← proc_of_step h hq]

theorem sound_of_reaches {c t : Config P M α} {p : P} (h : Transition.Reaches (step next) c t)
    (ht : Process.Sound good (t.proc p)) : Process.Sound good (c.proc p) := by
  obtain ⟨as, has⟩ := h
  induction as generalizing c with
  | nil =>
    cases has
    exact ht
  | cons a as ih =>
    obtain ⟨u, hu, hrest⟩ := Option.bind_eq_some_iff.mp has
    exact sound_of_step hu (ih hrest)

/-- Processes that settle on good results answer with them. -/
theorem Settles.answers {c : P → Process M α} {Q : (P → α) → Prop} (h : Settles next c Q)
    (hQ : ∀ r, Q r → ∀ p, good (r p)) : Answers next c good := by
  obtain ⟨r, ⟨bs, hbs⟩, hr⟩ := h.completes
  obtain ⟨n, hn⟩ := h
  refine ⟨n, fun as t has => ⟨(hn as t has).1, fun p => ?_⟩⟩
  obtain ⟨cs, -, hcs⟩ := diamond.descent (terminal_returned r) hbs has
  exact sound_of_reaches ⟨cs, hcs⟩ (hQ r hr p)

/-- A process that returns something else right away. -/
theorem not_answers_of_pure {c : P → Process M α} {p : P} {a : α} (hp : c p = .pure a) (ha : ¬ good a) :
    ¬ Answers next c good := by
  rintro ⟨n, hn⟩
  have hsound := (hn [] (start c) rfl).2 p
  rw [show (start c).proc p = .pure a from hp] at hsound
  exact ha hsound

end Network
