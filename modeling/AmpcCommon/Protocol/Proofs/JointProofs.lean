import Mathlib
import AmpcCommon.Protocol.Session

/-!
# Joint calls of the three parties

`Joint` says that the three parties, each running its own program, complete together with the given outcomes
and streams. `Succeeds` is the triple the protocols are proved with: from any streams in lockstep the parties
all return `Ok`, with results that meet the postcondition, and the streams are in lockstep again. Since steps
of different parties commute, this speaks about every schedule (`Succeeds.settles`).

The rules follow the programs: sequence (`Succeeds.bind`), a round in which every party sends to the next one
(`Succeeds.exchange`), draws that use the two ends of every stream alike (`Succeeds.drawBoth`), and the
rotation of the roles (`Succeeds.rotate`). Where the three roles have programs of their own, the programs are
executed side by side from given streams (`SucceedsFrom`): one rule for every party that draws, and one for
every pair of parties that pass a message.
-/

namespace AmpcCommon.Protocol

variable {R α β : Type}

/-! ## The monad of programs -/

theorem andThen_pure : (Proc.andThen pure : Outcome α × Prf R → Process RingMsg (Outcome α × Prf R)) =
    Process.pure := by
  funext ⟨o, prf⟩
  cases o <;> rfl

instance : LawfulMonad (Proc R) := LawfulMonad.mk' (Proc R)
  (by
    intro α x
    funext prf
    show (x prf).bind (Proc.andThen pure) = x prf
    rw [andThen_pure, Process.bind_pure])
  (by
    intro α β a f
    rfl)
  (by
    intro α β γ x f g
    funext prf
    show ((x prf).bind _).bind _ = (x prf).bind _
    rw [Process.bind_assoc]
    congr
    funext ⟨o, prf⟩
    cases o <;> rfl)

/-! ## Joint calls -/

/-- The three parties complete their programs together. -/
def Joint (x : Party → Proc R α) (σ : Party → Prf R) (o : Party → Outcome α) (σ' : Party → Prf R) : Prop :=
  Network.Completes nextParty (fun p => x p (σ p)) fun p => (o p, σ' p)

/-- From streams in lockstep, all parties return `Ok` with results that meet `Q`, and the streams are in
lockstep again. -/
def Succeeds (x : Party → Proc R α) (Q : (Party → α) → Prop) : Prop :=
  ∀ σ, Lockstep σ → ∃ r σ', Joint x σ (fun p => .ok (r p)) σ' ∧ Lockstep σ' ∧ Q r

/-- The same from the streams `σ`. -/
def SucceedsFrom (σ : Party → Prf R) (x : Party → Proc R α) (Q : (Party → α) → Prop) : Prop :=
  ∃ r σ', Joint x σ (fun p => .ok (r p)) σ' ∧ Lockstep σ' ∧ Q r

theorem Joint.pure (a : Party → α) (σ : Party → Prf R) :
    Joint (fun p => (Pure.pure (a p) : Proc R α)) σ (fun p => .ok (a p)) σ :=
  Network.Completes.pure _

theorem Joint.bind {x : Party → Proc R α} {f : Party → α → Proc R β} {σ σ₁ σ' : Party → Prf R} {r : Party → α}
    {o : Party → Outcome β} (hx : Joint x σ (fun p => .ok (r p)) σ₁) (hf : Joint (fun p => f p (r p)) σ₁ o σ') :
    Joint (fun p => x p >>= f p) σ o σ' :=
  Network.Completes.bind (k := fun p => Proc.andThen (f p)) hx hf

/-- Local computations that do not fail are left out. -/
theorem Joint.lift_bind {o : Party → Outcome β} {a : Party → β} {f : Party → β → Proc R α} {σ σ' : Party → Prf R}
    {out : Party → Outcome α} (ho : ∀ p, o p = .ok (a p)) (h : Joint (fun p => f p (a p)) σ out σ') :
    Joint (fun p => Proc.lift (o p) >>= f p) σ out σ' := by
  have hpure : (fun p => Proc.lift (o p) >>= f p) = fun p => f p (a p) := by
    funext p
    rw [ho p]
    rfl
  rw [hpure]
  exact h

/-- A round: every party sends a message to the next one and receives one from the previous one. -/
theorem Joint.exchange {m : Party → RingMsg} {k : Party → RingMsg → Proc R α} {σ σ' : Party → Prf R}
    {o : Party → Outcome α} (h : Joint (fun p => k p (m (p - 1))) σ o σ') :
    Joint (fun p => Proc.send .next (m p) >>= fun _ => Proc.receive .prev >>= k p) σ o σ' := by
  have hshift : Transition.Reaches (Network.step nextParty) _ _ :=
    Network.reaches_shift m fun p msg => k p msg (σ p)
  simp only [nextParty_symm_apply] at hshift
  exact hshift.trans h

theorem SucceedsFrom.rotate {σ : Party → Prf R} {x : Party → Proc R α} {Q : (Party → α) → Prop} (s : Party)
    (h : SucceedsFrom (fun p => σ (p - s)) x fun r => Q fun p => r (p + s)) :
    SucceedsFrom σ (fun p => x (p + s)) Q := by
  obtain ⟨r, σ', hjoint, hσ', hr⟩ := h
  refine ⟨fun p => r (p + s), fun p => σ' (p + s), ?_, ?_, hr⟩
  · have hcomm : ∀ p, Equiv.addRight s (nextParty p) = nextParty (Equiv.addRight s p) := by
      intro p
      show p + 1 + s = p + s + 1
      rw [add_right_comm]
    have hrel := hjoint.relabel hcomm
    simp only [Equiv.coe_addRight, add_sub_cancel_right] at hrel
    exact hrel
  · intro p
    show (σ' (p + s)).myPrf = (σ' (p + 1 + s)).prevPrf
    rw [hσ', add_right_comm]

theorem SucceedsFrom.mono {σ : Party → Prf R} {x : Party → Proc R α} {Q Q' : (Party → α) → Prop}
    (h : SucceedsFrom σ x Q) (hQ : ∀ r, Q r → Q' r) : SucceedsFrom σ x Q' := by
  obtain ⟨r, σ', hjoint, hσ', hr⟩ := h
  exact ⟨r, σ', hjoint, hσ', hQ r hr⟩

theorem SucceedsFrom.bind {σ : Party → Prf R} {x : Party → Proc R α} {Q : (Party → α) → Prop}
    {f : Party → α → Proc R β} {Q' : (Party → β) → Prop} (hx : SucceedsFrom σ x Q)
    (hf : ∀ r, Q r → Succeeds (fun p => f p (r p)) Q') : SucceedsFrom σ (fun p => x p >>= f p) Q' := by
  obtain ⟨r, σ₁, hjoint, hσ₁, hr⟩ := hx
  obtain ⟨r', σ', hjoint', hσ', hr'⟩ := hf r hr σ₁ hσ₁
  exact ⟨r', σ', hjoint.bind hjoint', hσ', hr'⟩

namespace Succeeds

variable {x : Party → Proc R α} {Q Q' : (Party → α) → Prop}

theorem mono (h : Succeeds x Q) (hQ : ∀ r, Q r → Q' r) : Succeeds x Q' :=
  fun σ hσ => SucceedsFrom.mono (h σ hσ) hQ

theorem pure {a : Party → α} (h : Q a) : Succeeds (fun p => (Pure.pure (a p) : Proc R α)) Q :=
  fun σ hσ => ⟨a, σ, Joint.pure a σ, hσ, h⟩

theorem bind {f : Party → α → Proc R β} {Q' : (Party → β) → Prop} (hx : Succeeds x Q)
    (hf : ∀ r, Q r → Succeeds (fun p => f p (r p)) Q') : Succeeds (fun p => x p >>= f p) Q' :=
  fun σ hσ => SucceedsFrom.bind (hx σ hσ) hf

theorem lift {o : Party → Outcome α} {a : Party → α} (ho : ∀ p, o p = .ok (a p)) (h : Q a) :
    Succeeds (fun p => (Proc.lift (o p) : Proc R α)) Q := by
  have hpure : (fun p => (Proc.lift (o p) : Proc R α)) = fun p => Pure.pure (a p) := by
    funext p
    rw [ho p]
    rfl
  rw [hpure]
  exact pure h

theorem lift_bind {o : Party → Outcome β} {a : Party → β} {f : Party → β → Proc R α}
    (ho : ∀ p, o p = .ok (a p)) (h : Succeeds (fun p => f p (a p)) Q) :
    Succeeds (fun p => Proc.lift (o p) >>= f p) Q := by
  intro σ hσ
  obtain ⟨r, σ', hjoint, hσ', hr⟩ := h σ hσ
  exact ⟨r, σ', hjoint.lift_bind ho, hσ', hr⟩

theorem exchange {m : Party → RingMsg} {k : Party → RingMsg → Proc R α}
    (h : Succeeds (fun p => k p (m (p - 1))) Q) :
    Succeeds (fun p => Proc.send .next (m p) >>= fun _ => Proc.receive .prev >>= k p) Q := by
  intro σ hσ
  obtain ⟨r, σ', hjoint, hσ', hr⟩ := h σ hσ
  exact ⟨r, σ', hjoint.exchange, hσ', hr⟩

/-- A round with vectors of ring elements. -/
theorem exchangeRingVec {t : RingTy} {v : Party → List (BitVec t.bits)}
    {k : Party → List (BitVec t.bits) → Proc R α} (h : Succeeds (fun p => k p (v (p - 1))) Q) :
    Succeeds (fun p => Proc.sendRingVecNext t (v p) >>= fun _ => Proc.receiveRingVec t .prev >>= k p) Q := by
  have hround : (fun p => Proc.sendRingVecNext t (v p) >>= fun _ => Proc.receiveRingVec t .prev >>= k p) =
      fun p => Proc.send .next (ringVecMsg t (v p)) >>= fun _ =>
        Proc.receive .prev >>= fun m => (Proc.lift (intoVec t m) : Proc R _) >>= k p := by
    funext p
    simp only [Proc.sendRingVecNext, Proc.receiveRingVec, bind_assoc]
  rw [hround]
  exact exchange (lift_bind (fun p => intoVec_ringVecMsg t (v (p - 1))) h)

/-- Every party draws from both of its streams, and the two ends of every stream are drawn from alike. -/
theorem drawBoth {γ : Type} {f : R → γ × R} {k : Party → γ × γ → Proc R α}
    (h : ∀ v : Party → γ, (∀ p, ∃ rng, v p = (f rng).1) → Succeeds (fun p => k p (v p, v (p - 1))) Q) :
    Succeeds (fun p => Proc.draw (fun prf => (((f prf.myPrf).1, (f prf.prevPrf).1),
      ⟨(f prf.myPrf).2, (f prf.prevPrf).2⟩)) >>= k p) Q := by
  intro σ hσ
  have hprev : ∀ p, (σ p).prevPrf = (σ (p - 1)).myPrf := by
    intro p
    rw [hσ, sub_add_cancel]
  have hlock : Lockstep fun p => (⟨(f (σ p).myPrf).2, (f (σ p).prevPrf).2⟩ : Prf R) := by
    intro p
    show (f (σ p).myPrf).2 = (f (σ (p + 1)).prevPrf).2
    rw [hσ p]
  obtain ⟨r, σ', hjoint, hσ', hr⟩ :=
    h (fun p => (f (σ p).myPrf).1) (fun p => ⟨_, rfl⟩) _ hlock
  refine ⟨r, σ', ?_, hσ', hr⟩
  have hk : (fun p => (Proc.draw (fun prf => (((f prf.myPrf).1, (f prf.prevPrf).1),
      ⟨(f prf.myPrf).2, (f prf.prevPrf).2⟩)) >>= k p) (σ p)) =
      fun p => k p ((f (σ p).myPrf).1, (f (σ (p - 1)).myPrf).1)
        ⟨(f (σ p).myPrf).2, (f (σ p).prevPrf).2⟩ := by
    funext p
    rw [← hprev p]
    rfl
  unfold Joint
  rw [hk]
  exact hjoint

theorem genRandsBatch [Rng R] {t : RingTy} {n : Nat}
    {k : Party → List (BitVec t.bits) × List (BitVec t.bits) → Proc R α}
    (h : ∀ v : Party → List (BitVec t.bits), (∀ p, (v p).length = n) →
      Succeeds (fun p => k p (v p, v (p - 1))) Q) :
    Succeeds (fun p => Proc.draw (Prf.genRandsBatch t n) >>= k p) Q := by
  refine drawBoth (f := t.fillVecRing n) fun v hv => h v fun p => ?_
  obtain ⟨rng, hrng⟩ := hv p
  rw [hrng, length_fillVecRing]

/-- The rotation of the parties. -/
theorem rotate (s : Party) (h : Succeeds x fun r => Q fun p => r (p + s)) :
    Succeeds (fun p => x (p + s)) Q := by
  intro σ hσ
  have hlock : Lockstep fun p => σ (p - s) := by
    intro p
    show (σ (p - s)).myPrf = (σ (p + 1 - s)).prevPrf
    rw [hσ, sub_add_eq_add_sub]
  exact SucceedsFrom.rotate s (h _ hlock)

/-- Whatever the order of the steps is, the parties all return after boundedly many steps. -/
theorem settles (h : Succeeds x Q) {σ : Party → Prf R} (hσ : Lockstep σ) :
    Network.Settles nextParty (fun p => x p (σ p)) fun o =>
      ∃ r σ', (∀ p, o p = (.ok (r p), σ' p)) ∧ Lockstep σ' ∧ Q r := by
  obtain ⟨r, σ', hjoint, hσ', hr⟩ := h σ hσ
  exact hjoint.settles ⟨r, σ', fun p => rfl, hσ', hr⟩

end Succeeds

/-! ## Rounds in which only some parties send -/

section Passes

variable {M γ : Type}

theorem reaches_pass01 (m : M) (A : Process M γ) (B : M → Process M γ) (C : Process M γ) :
    Transition.Reaches (Network.step nextParty)
      (Network.start ![.send .next m A, .recv .prev B, C]) (Network.start ![A, B m, C]) := by
  have h : Transition.Reaches (Network.step nextParty) _ _ := Network.reaches_pass (p := 0)
    (c := ![.send .next m A, .recv .prev B, C]) (by decide) rfl rfl
  have hend : Function.update (Function.update ![.send .next m A, .recv .prev B, C] 0 A)
      (nextParty 0) (B m) = ![A, B m, C] := by
    funext p
    fin_cases p <;> rfl
  rw [hend] at h
  exact h

theorem reaches_pass12 (A : Process M γ) (m : M) (B : Process M γ) (C : M → Process M γ) :
    Transition.Reaches (Network.step nextParty)
      (Network.start ![A, .send .next m B, .recv .prev C]) (Network.start ![A, B, C m]) := by
  have h : Transition.Reaches (Network.step nextParty) _ _ := Network.reaches_pass (p := 1)
    (c := ![A, .send .next m B, .recv .prev C]) (by decide) rfl rfl
  have hend : Function.update (Function.update ![A, .send .next m B, .recv .prev C] 1 B)
      (nextParty 1) (C m) = ![A, B, C m] := by
    funext p
    fin_cases p <;> rfl
  rw [hend] at h
  exact h

theorem reaches_pass20 (A : M → Process M γ) (B : Process M γ) (m : M) (C : Process M γ) :
    Transition.Reaches (Network.step nextParty)
      (Network.start ![.recv .prev A, B, .send .next m C]) (Network.start ![A m, B, C]) := by
  have h : Transition.Reaches (Network.step nextParty) _ _ := Network.reaches_pass (p := 2)
    (c := ![.recv .prev A, B, .send .next m C]) (by decide) rfl rfl
  have hend : Function.update (Function.update ![.recv .prev A, B, .send .next m C] 2 C)
      (nextParty 2) (A m) = ![A m, B, C] := by
    funext p
    fin_cases p <;> rfl
  rw [hend] at h
  exact h

theorem reaches_swap12 (A : Process M γ) (m m' : M) (B C : M → Process M γ) :
    Transition.Reaches (Network.step nextParty)
      (Network.start ![A, .send .next m (.recv .next B), .send .prev m' (.recv .prev C)])
      (Network.start ![A, B m', C m]) := by
  have h : Transition.Reaches (Network.step nextParty) _ _ := Network.reaches_swap (p := 1)
    (c := ![A, .send .next m (.recv .next B), .send .prev m' (.recv .prev C)]) (by decide) rfl rfl
  have hend : Function.update (Function.update
      ![A, .send .next m (.recv .next B), .send .prev m' (.recv .prev C)] 1 (B m')) (nextParty 1)
      (C m) = ![A, B m', C m] := by
    funext p
    fin_cases p <;> rfl
  rw [hend] at h
  exact h

/-- A function on the parties, by its three values. -/
theorem party_eq_vec {γ : Type} (f : Party → γ) : f = ![f 0, f 1, f 2] := by
  funext p
  fin_cases p <;> rfl

end Passes

/-! ## The three roles side by side -/

/-- Streams in lockstep, by the three streams there are. -/
theorem Lockstep.eq_vec {σ : Party → Prf R} (h : Lockstep σ) :
    σ = ![⟨(σ 0).myPrf, (σ 2).myPrf⟩, ⟨(σ 1).myPrf, (σ 0).myPrf⟩, ⟨(σ 2).myPrf, (σ 1).myPrf⟩] := by
  have h0 : (σ 0).myPrf = (σ 1).prevPrf := h 0
  have h1 : (σ 1).myPrf = (σ 2).prevPrf := h 1
  have h2 : (σ 2).myPrf = (σ 0).prevPrf := h 2
  funext p
  fin_cases p
  · show σ 0 = ⟨(σ 0).myPrf, (σ 2).myPrf⟩
    rw [h2]
  · show σ 1 = ⟨(σ 1).myPrf, (σ 0).myPrf⟩
    rw [h0]
  · show σ 2 = ⟨(σ 2).myPrf, (σ 1).myPrf⟩
    rw [h1]

theorem lockstep_vec (s0 s1 s2 : R) : Lockstep ![⟨s0, s2⟩, ⟨s1, s0⟩, ⟨s2, s1⟩] := by
  intro p
  fin_cases p <;> rfl

theorem Succeeds.of_roles {x : Party → Proc R α} {Q : (Party → α) → Prop}
    (h : ∀ s0 s1 s2, SucceedsFrom ![⟨s0, s2⟩, ⟨s1, s0⟩, ⟨s2, s1⟩] ![x 0, x 1, x 2] Q) : Succeeds x Q := by
  intro σ hσ
  rw [hσ.eq_vec, party_eq_vec x]
  exact h _ _ _

namespace SucceedsFrom

variable {γ : Type} {a b c : Prf R} {x y z : Proc R α} {Q : (Party → α) → Prop}

theorem of_run {σ τ : Party → Prf R} {x y : Party → Proc R α}
    (hrun : Transition.Reaches (Network.step nextParty) (Network.start fun p => x p (σ p))
      (Network.start fun p => y p (τ p))) (h : SucceedsFrom τ y Q) : SucceedsFrom σ x Q := by
  obtain ⟨r, σ', hjoint, hσ', hr⟩ := h
  exact ⟨r, σ', hrun.trans hjoint, hσ', hr⟩

theorem of_eq {σ τ : Party → Prf R} {x y : Party → Proc R α} (heq : ∀ p, x p (σ p) = y p (τ p))
    (h : SucceedsFrom τ y Q) : SucceedsFrom σ x Q := by
  refine of_run ?_ h
  rw [funext heq]
  exact .refl _

theorem pure {u v w : α} (hσ : Lockstep ![a, b, c]) (h : Q ![u, v, w]) :
    SucceedsFrom ![a, b, c] ![Pure.pure u, Pure.pure v, Pure.pure w] Q := by
  refine ⟨![u, v, w], ![a, b, c], ?_, hσ, h⟩
  have hprog : (fun p => (![Pure.pure u, Pure.pure v, Pure.pure w] : Party → Proc R α) p (![a, b, c] p)) =
      fun p => .pure (.ok (![u, v, w] p), ![a, b, c] p) := by
    funext p
    fin_cases p <;> rfl
  unfold Joint
  rw [hprog]
  exact Network.Completes.pure _

/-- A local computation of one party. -/
theorem local0 {x : Proc R γ} {a' : Prf R} {v : γ} {k : γ → Proc R α} (hx : x a = .pure (.ok v, a'))
    (h : SucceedsFrom ![a', b, c] ![k v, y, z] Q) : SucceedsFrom ![a, b, c] ![x >>= k, y, z] Q := by
  refine of_eq (fun p => ?_) h
  fin_cases p
  · show (x a).bind (Proc.andThen k) = k v a'
    rw [hx]
    rfl
  · rfl
  · rfl

theorem local1 {y : Proc R γ} {b' : Prf R} {v : γ} {k : γ → Proc R α} (hy : y b = .pure (.ok v, b'))
    (h : SucceedsFrom ![a, b', c] ![x, k v, z] Q) : SucceedsFrom ![a, b, c] ![x, y >>= k, z] Q := by
  refine of_eq (fun p => ?_) h
  fin_cases p
  · rfl
  · show (y b).bind (Proc.andThen k) = k v b'
    rw [hy]
    rfl
  · rfl

theorem local2 {z : Proc R γ} {c' : Prf R} {v : γ} {k : γ → Proc R α} (hz : z c = .pure (.ok v, c'))
    (h : SucceedsFrom ![a, b, c'] ![x, y, k v] Q) : SucceedsFrom ![a, b, c] ![x, y, z >>= k] Q := by
  refine of_eq (fun p => ?_) h
  fin_cases p
  · rfl
  · rfl
  · show (z c).bind (Proc.andThen k) = k v c'
    rw [hz]
    rfl

theorem draw0 {f : Prf R → γ × Prf R} {k : γ → Proc R α}
    (h : SucceedsFrom ![(f a).2, b, c] ![k (f a).1, y, z] Q) :
    SucceedsFrom ![a, b, c] ![Proc.draw f >>= k, y, z] Q :=
  local0 rfl h

theorem draw1 {f : Prf R → γ × Prf R} {k : γ → Proc R α}
    (h : SucceedsFrom ![a, (f b).2, c] ![x, k (f b).1, z] Q) :
    SucceedsFrom ![a, b, c] ![x, Proc.draw f >>= k, z] Q :=
  local1 rfl h

theorem draw2 {f : Prf R → γ × Prf R} {k : γ → Proc R α}
    (h : SucceedsFrom ![a, b, (f c).2] ![x, y, k (f c).1] Q) :
    SucceedsFrom ![a, b, c] ![x, y, Proc.draw f >>= k] Q :=
  local2 rfl h

/-- The first party sends a vector to the second one. -/
theorem pass01 {t : RingTy} {v : List (BitVec t.bits)} {k : Unit → Proc R α}
    {k' : List (BitVec t.bits) → Proc R α} (h : SucceedsFrom ![a, b, c] ![k (), k' v, z] Q) :
    SucceedsFrom ![a, b, c] ![Proc.sendRingVecNext t v >>= k, Proc.receiveRingVec t .prev >>= k', z] Q := by
  refine of_run ?_ h
  have hrun := reaches_pass01 (ringVecMsg t v) (k () a)
    (fun m => ((Proc.lift (intoVec t m) : Proc R _) >>= k') b) (z c)
  rw [intoVec_ringVecMsg] at hrun
  rw [party_eq_vec (fun p => _), party_eq_vec (fun p => (![k (), k' v, z] : Party → Proc R α) p _)]
  exact hrun

theorem pass12 {t : RingTy} {v : List (BitVec t.bits)} {k : Unit → Proc R α}
    {k' : List (BitVec t.bits) → Proc R α} (h : SucceedsFrom ![a, b, c] ![x, k (), k' v] Q) :
    SucceedsFrom ![a, b, c] ![x, Proc.sendRingVecNext t v >>= k, Proc.receiveRingVec t .prev >>= k'] Q := by
  refine of_run ?_ h
  have hrun := reaches_pass12 (x a) (ringVecMsg t v) (k () b)
    (fun m => ((Proc.lift (intoVec t m) : Proc R _) >>= k') c)
  rw [intoVec_ringVecMsg] at hrun
  rw [party_eq_vec (fun p => _), party_eq_vec (fun p => (![x, k (), k' v] : Party → Proc R α) p _)]
  exact hrun

theorem pass20 {t : RingTy} {v : List (BitVec t.bits)} {k : Unit → Proc R α}
    {k' : List (BitVec t.bits) → Proc R α} (h : SucceedsFrom ![a, b, c] ![k' v, y, k ()] Q) :
    SucceedsFrom ![a, b, c] ![Proc.receiveRingVec t .prev >>= k', y, Proc.sendRingVecNext t v >>= k] Q := by
  refine of_run ?_ h
  have hrun := reaches_pass20 (fun m => ((Proc.lift (intoVec t m) : Proc R _) >>= k') a) (y b)
    (ringVecMsg t v) (k () c)
  rw [intoVec_ringVecMsg] at hrun
  rw [party_eq_vec (fun p => _), party_eq_vec (fun p => (![k' v, y, k ()] : Party → Proc R α) p _)]
  exact hrun

/-- The second and the third party exchange vectors. -/
theorem swap12 {t : RingTy} {v w : List (BitVec t.bits)} {k k' : List (BitVec t.bits) → Proc R α}
    (h : SucceedsFrom ![a, b, c] ![x, k w, k' v] Q) :
    SucceedsFrom ![a, b, c] ![x,
      Proc.sendRingVecNext t v >>= fun _ => Proc.receiveRingVec t .next >>= k,
      Proc.sendRingVecPrev t w >>= fun _ => Proc.receiveRingVec t .prev >>= k'] Q := by
  refine of_run ?_ h
  have hrun := reaches_swap12 (x a) (ringVecMsg t v) (ringVecMsg t w)
    (fun m => ((Proc.lift (intoVec t m) : Proc R _) >>= k) b)
    (fun m => ((Proc.lift (intoVec t m) : Proc R _) >>= k') c)
  rw [intoVec_ringVecMsg, intoVec_ringVecMsg] at hrun
  rw [party_eq_vec (fun p => _), party_eq_vec (fun p => (![x, k w, k' v] : Party → Proc R α) p _)]
  exact hrun

end SucceedsFrom

/-! ## A generator for concrete runs -/

/-- A generator that counts up (`StepRng` of the `rand` crate). -/
structure StepRng where
  v : Nat

instance : Rng StepRng where
  gen K rng := (BitVec.ofNat K rng.v, ⟨rng.v + 1⟩)
  fill K len rng := (fun i => BitVec.ofNat K (rng.v + i), ⟨rng.v + len⟩)

/-- Streams that start at the index of the party they belong to. -/
def stepStreams (p : Party) : Prf StepRng := ⟨⟨p.val⟩, ⟨(p - 1).val⟩⟩

theorem lockstep_stepStreams : Lockstep stepStreams := by
  intro p
  show (⟨p.val⟩ : StepRng) = ⟨(p + 1 - 1).val⟩
  rw [add_sub_cancel_right]

end AmpcCommon.Protocol
