import AmpcCommon.Protocol.Opening
import AmpcCommon.Protocol.Proofs.MsbProofs
import AmpcCommon.Protocol.Proofs.InjectProofs
import AmpcCommon.Protocol.Proofs.OpeningProofs

/-!
# Sharings of given secrets

A program that only computes on shares is followed by what is shared: `SharesOf v secrets` says that the parties hold
consistent additive shares of the secrets, and `SharesBits v bits` the same of binary ones. The extraction of most
significant bits leads from the first to the second, bit injection back, and an opening gives the secrets to all
parties.
-/

namespace AmpcCommon.Protocol

variable {K : Nat}

/-- The parties hold additive shares of the secrets. -/
def SharesOf (v : Party → List (Share K)) (secrets : List (BitVec K)) : Prop :=
  ∃ xs, Shares v xs ∧ xs.map Rep3.sum = secrets

/-- The parties hold binary shares of the bits. -/
def SharesBits (v : Party → List (Share 1)) (bits : List (BitVec 1)) : Prop :=
  ∃ xs, Shares v xs ∧ xs.map Rep3.xor = bits

theorem SharesOf.length {v : Party → List (Share K)} {secrets : List (BitVec K)} (h : SharesOf v secrets) (p : Party) :
    (v p).length = secrets.length := by
  obtain ⟨xs, hx, rfl⟩ := h
  rw [hx.length, List.length_map]

theorem SharesBits.length {v : Party → List (Share 1)} {bits : List (BitVec 1)} (h : SharesBits v bits) (p : Party) :
    (v p).length = bits.length := by
  obtain ⟨xs, hx, rfl⟩ := h
  rw [hx.length, List.length_map]

theorem SharesOf.nil : SharesOf (fun _ => ([] : List (Share K))) [] := ⟨[], fun _ => rfl, rfl⟩

theorem SharesOf.append {v w : Party → List (Share K)} {xs ys : List (BitVec K)} (hv : SharesOf v xs)
    (hw : SharesOf w ys) : SharesOf (fun p => v p ++ w p) (xs ++ ys) := by
  obtain ⟨xs, hx, rfl⟩ := hv
  obtain ⟨ys, hy, rfl⟩ := hw
  refine ⟨xs ++ ys, fun p => ?_, List.map_append⟩
  show v p ++ w p = _
  rw [hx p, hy p, List.map_append]

/-- One share. -/
theorem SharesOf.singleton {v : Party → Share K} {x : Rep3 K} (h : ∀ p, v p = x.view p) :
    SharesOf (fun p => [v p]) [x.sum] := by
  refine ⟨[x], fun p => ?_, rfl⟩
  show [v p] = _
  rw [h p]
  rfl

/-- A local computation on every share. -/
theorem SharesOf.map {L : Nat} {v : Party → List (Share K)} {secrets : List (BitVec K)} (h : SharesOf v secrets)
    {f : Party → Share K → Share L} {g : Rep3 K → Rep3 L} {out : BitVec K → BitVec L}
    (hf : ∀ p x, f p (Rep3.view p x) = Rep3.view p (g x)) (hg : ∀ x, (g x).sum = out x.sum) :
    SharesOf (fun p => (v p).map (f p)) (secrets.map out) := by
  obtain ⟨xs, hx, rfl⟩ := h
  refine ⟨xs.map g, fun p => ?_, ?_⟩
  · show (v p).map (f p) = _
    rw [hx p, List.map_map, List.map_map]
    exact List.map_congr_left fun x _ => hf p x
  · rw [List.map_map, List.map_map]
    exact List.map_congr_left fun x _ => hg x

/-- A public element is subtracted from the first component. -/
theorem SharesOf.subPub {v : Party → List (Share K)} {secrets : List (BitVec K)} (h : SharesOf v secrets)
    (sid : BitVec 32) (rhs : BitVec K) :
    SharesOf (fun p => (v p).map fun share => Protocol.subPub ⟨p, sid⟩ share rhs) (secrets.map (· - rhs)) := by
  refine h.map (g := fun x q => if q = 0 then x q - rhs else x q) (fun p x => ?_) fun x => ?_
  · fin_cases p <;> rfl
  · show x 0 - rhs + x 1 + x 2 = x 0 + x 1 + x 2 - rhs
    ring

/-- The sum of all shares. -/
theorem view_foldl_add (p : Party) (xs : List (Rep3 K)) (x : Rep3 K) :
    (xs.map (Rep3.view p)).foldl (· + ·) (x.view p) = Rep3.view p (xs.foldl (fun x y q => x q + y q) x) := by
  induction xs generalizing x with
  | nil => rfl
  | cons y xs ih => exact ih fun q => x q + y q

theorem sum_foldl_add (xs : List (Rep3 K)) (x : Rep3 K) :
    (xs.foldl (fun x y q => x q + y q) x).sum = x.sum + (xs.map Rep3.sum).sum := by
  induction xs generalizing x with
  | nil => simp
  | cons y xs ih =>
    rw [List.foldl_cons, ih, List.map_cons, List.sum_cons]
    unfold Rep3.sum
    ring

theorem SharesOf.sum {v : Party → List (Share K)} {secrets : List (BitVec K)} (h : SharesOf v secrets) :
    SharesOf (fun p => [(v p).foldl (· + ·) 0]) [secrets.sum] := by
  obtain ⟨xs, hx, rfl⟩ := h
  have hzero : (Rep3.sum fun _ => (0 : BitVec K)) = 0 := by simp [Rep3.sum]
  have hsum := sum_foldl_add xs fun _ => (0 : BitVec K)
  rw [hzero, zero_add] at hsum
  rw [← hsum]
  refine SharesOf.singleton fun p => ?_
  rw [hx p]
  exact view_foldl_add p xs fun _ => 0

/-! ## Openings -/

theorem sum_components (x : Rep3 K) (p : Party) : (x.view p).a + (x.view p).b + (x.view (p - 1)).b = x.sum := by
  unfold Rep3.sum
  fin_cases p
  · show x 0 + x 2 + x 1 = _
    ac_rfl
  · show x 1 + x 0 + x 2 = _
    ac_rfl
  · show x 2 + x 1 + x 0 = _
    ac_rfl

section Programs

variable {R : Type} {t : RingTy}

theorem errorIn_intoVec (text : String) (v : List (BitVec t.bits)) :
    errorIn text (intoVec t (ringVecMsg t v)) = .ok v := by
  rw [intoVec_ringVecMsg]
  rfl

/-- Opened ring elements are the secrets, at all parties; the streams stay as they are. -/
theorem openRing_joint {v : Party → List (Share t.bits)} {xs : List (Rep3 t.bits)} (h : Shares v xs)
    (σ : Party → Prf R) : Joint (fun p => openRing t (v p)) σ (fun _ => .ok (xs.map Rep3.sum)) σ := by
  simp only [openRing, receiveOpening, bind_assoc]
  refine Joint.exchange (Joint.lift_bind (fun p => errorIn_intoVec _ ((v (p - 1)).map Share.b)) ?_)
  have hopen : ∀ p, List.zipWith (fun (s : Share t.bits) c => s.a + s.b + c) (v p) ((v (p - 1)).map Share.b) =
      xs.map Rep3.sum := by
    intro p
    rw [h p, h (p - 1), List.map_map, List.zipWith_map, List.zipWith_self]
    exact List.map_congr_left fun x _ => sum_components x p
  simp only [hopen]
  exact Joint.pure _ σ

theorem openRing_succeeds {v : Party → List (Share t.bits)} {secrets : List (BitVec t.bits)}
    (h : SharesOf v secrets) : Succeeds (fun p => (openRing t (v p) : Proc R _)) fun r => ∀ p, r p = secrets := by
  obtain ⟨xs, hx, rfl⟩ := h
  exact fun σ hσ => ⟨fun _ => xs.map Rep3.sum, σ, openRing_joint hx σ, hσ, fun _ => rfl⟩

/-- A round in which every party sends to both neighbours. It receives from the previous one first. -/
theorem Joint.exchangeBoth {α β : Type} {m : Party → RingMsg} {f : RingMsg → Outcome β} {v : Party → β}
    (hf : ∀ p, f (m (p - 1)) = .ok (v p)) {k : Party → β → RingMsg → Proc R α} {σ σ' : Party → Prf R}
    {o : Party → Outcome α} (h : Joint (fun p => k p (v p) (m (p + 1))) σ o σ') :
    Joint (fun p => Proc.send .next (m p) >>= fun _ => Proc.send .prev (m p) >>= fun _ =>
      Proc.receive .prev >>= fun a => Proc.lift (f a) >>= fun b => Proc.receive .next >>= k p b) σ o σ' := by
  have hprev : ∀ p, Network.peer nextParty p .prev = p - 1 := nextParty_symm_apply
  have hnext : ∀ p, Network.peer nextParty p Dir.prev.flip = p + 1 := nextParty_apply
  have hround : Transition.Reaches (Network.step nextParty) _ _ :=
    Network.reaches_exchange_of (d := .prev) (m := fun _ => m)
      (g := fun p a => (Proc.lift (f a) >>= fun b => Proc.receive .next >>= k p b) (σ p))
      (k := fun p c => k p (v p) c (σ p)) (by
        intro p
        show (Proc.lift (f (m (Network.peer nextParty p .prev))) >>= fun b => Proc.receive .next >>= k p b) (σ p) = _
        rw [hprev, hf]
        rfl)
  simp only [hnext] at hround
  exact hround.trans h

theorem sum_neighbours (f : Party → BitVec K) (p : Party) : f p + f (p - 1) + f (p + 1) = Rep3.sum f := by
  unfold Rep3.sum
  fin_cases p
  · show f 0 + f 2 + f 1 = _
    ac_rfl
  · show f 1 + f 0 + f 2 = _
    ac_rfl
  · show f 2 + f 1 + f 0 = _
    ac_rfl

/-- Opened additive shares add up, at all parties; the streams stay as they are. -/
theorem openRingElementBroadcast_joint {n : Nat} {v : Party → List (BitVec t.bits)} (hv : ∀ p, (v p).length = n)
    (σ : Party → Prf R) : Joint (fun p => openRingElementBroadcast t (v p)) σ
      (fun _ => .ok ((List.range n).map fun i => Rep3.sum fun q => (v q).getD i 0)) σ := by
  simp only [openRingElementBroadcast, Proc.sendRingVecNext, Proc.sendRingVecPrev, receiveOpening, bind_assoc]
  refine Joint.exchangeBoth (fun p => errorIn_intoVec _ (v (p - 1))) ?_
  refine Joint.lift_bind (fun p => errorIn_intoVec _ (v (p + 1))) ?_
  have hopen : ∀ p, List.zipWith (· + ·) (List.zipWith (· + ·) (v p) (v (p - 1))) (v (p + 1)) =
      (List.range n).map fun i => Rep3.sum fun q => (v q).getD i 0 := by
    intro p
    refine List.ext_getElem (by simp [hv]) fun i hi hi' => ?_
    have hlt : ∀ q, i < (v q).length := by
      intro q
      rw [hv q]
      simpa using hi'
    rw [List.getElem_map, List.getElem_range, List.getElem_zipWith, List.getElem_zipWith]
    simp only [← sum_neighbours _ p, List.getD_eq_getElem _ _ (hlt _)]
  simp only [hopen]
  exact Joint.pure _ σ

theorem openRingElementBroadcast_succeeds {n : Nat} {v : Party → List (BitVec t.bits)} (hv : ∀ p, (v p).length = n) :
    Succeeds (fun p => (openRingElementBroadcast t (v p) : Proc R _)) fun r =>
      ∀ p, r p = (List.range n).map fun i => Rep3.sum fun q => (v q).getD i 0 :=
  fun σ hσ => ⟨_, σ, openRingElementBroadcast_joint hv σ, hσ, fun _ => rfl⟩

/-! ## What an opening reveals -/

/-- Whatever the order of the steps is, all parties return the secrets, and their streams stay as they are. -/
def Reveals {α : Type} (x : Party → Proc R (List α)) (σ : Party → Prf R) (secrets : List α) : Prop :=
  Network.Settles nextParty (fun p => x p (σ p)) fun o => ∀ p, o p = (.ok secrets, σ p)

theorem Joint.reveals {α : Type} {x : Party → Proc R (List α)} {σ : Party → Prf R} {secrets : List α}
    (h : Joint x σ (fun _ => .ok secrets) σ) : Reveals x σ secrets := Network.Completes.settles h fun _ => rfl

/-- **Openings.** For every list of consistently replicated shares, all parties open the bits that are the XOR of the
three components, and the ring elements that are their sum; for every list of additive shares all parties open the
sums. The lists keep their length. -/
theorem openings_reveal (σ : Party → Prf R) (t : RingTy) (bits : List (Rep3 1)) (xs : List (Rep3 t.bits)) :
    (Reveals (fun p => openBin (bits.map (Rep3.view p))) σ (bits.map Rep3.xor) ∧
      (bits.map Rep3.xor).length = bits.length) ∧
    (Reveals (fun p => openRing t (xs.map (Rep3.view p))) σ (xs.map Rep3.sum) ∧
      (xs.map Rep3.sum).length = xs.length) ∧
    Reveals (fun p => openRingElementBroadcast t (xs.map fun x => x p)) σ (xs.map Rep3.sum) := by
  refine ⟨⟨?_, List.length_map _⟩, ⟨?_, List.length_map _⟩, ?_⟩
  · exact (openBin_joint (fun _ => rfl) σ).reveals
  · exact (openRing_joint (fun _ => rfl) σ).reveals
  · have hopen := openRingElementBroadcast_joint (n := xs.length) (v := fun p => xs.map fun x => x p)
      (fun p => List.length_map _) σ
    have hsum : ((List.range xs.length).map fun i => Rep3.sum fun q => (xs.map fun x => x q).getD i 0) =
        xs.map Rep3.sum := by
      refine List.ext_getElem (by simp) fun i hi hi' => ?_
      have hlt : i < xs.length := by simpa using hi
      rw [List.getElem_map, List.getElem_map, List.getElem_range]
      refine congrArg Rep3.sum (funext fun q => ?_)
      rw [List.getD_eq_getElem _ _ (by simpa using hlt), List.getElem_map]
    rw [hsum] at hopen
    exact hopen.reveals

variable [Rng R]

/-- The parties draw additive shares of zero. -/
theorem genZeroShare_succeeds (t : RingTy) :
    Succeeds (fun _ => (Proc.draw (Prf.genZeroShare t) : Proc R _)) fun r => Rep3.sum r = 0 := by
  have hprog : (fun _ : Party => (Proc.draw (Prf.genZeroShare t) : Proc R _)) =
      fun _ => Proc.draw (fun prf => (((t.gen prf.myPrf).1, (t.gen prf.prevPrf).1),
        ⟨(t.gen prf.myPrf).2, (t.gen prf.prevPrf).2⟩)) >>= fun v => pure (v.1 - v.2) := rfl
  rw [hprog]
  refine Succeeds.drawBoth (f := t.gen) fun v _ => Succeeds.pure ?_
  show v 0 - v 2 + (v 1 - v 0) + (v 2 - v 1) = 0
  ring

/-! ## Comparisons -/

omit [Rng R] in
theorem getBitAsBit_last {K : Nat} (x : BitVec K) : getBitAsBit x (K - 1) = BitVec.ofBool x.msb := by
  rw [BitVec.msb_eq_getLsbD_last]
  rfl

theorem extractMsbBatch_sharesBits (sid : BitVec 32) {v : Party → List (Share t.bits)} {secrets : List (BitVec t.bits)}
    (h : SharesOf v secrets) :
    Succeeds (fun p => (extractMsbBatch t ⟨p, sid⟩ (v p) : Proc R _)) fun r =>
      SharesBits r (secrets.map fun x => getBitAsBit x (t.bits - 1)) := by
  refine (extractMsbBatch_succeeds sid h.length).mono fun r hr => ?_
  obtain ⟨xs, hx, rfl⟩ := h
  obtain ⟨bits, hbits, hxor⟩ := hr.2 xs hx
  refine ⟨bits, hbits, hxor.trans ?_⟩
  rw [List.map_map]
  rfl

theorem extractMsbBatch_map {α : Type} (sid : BitVec 32) {v : Party → List (Share t.bits)} {l : List α}
    {f : α → BitVec t.bits} (h : SharesOf v (l.map f)) :
    Succeeds (fun p => (extractMsbBatch t ⟨p, sid⟩ (v p) : Proc R _)) fun r =>
      SharesBits r (l.map fun x => BitVec.ofBool (f x).msb) := by
  refine (extractMsbBatch_sharesBits sid h).mono fun r hr => ?_
  rw [List.map_map] at hr
  simp only [← getBitAsBit_last]
  exact hr

theorem bitInject_sharesOf (sid : BitVec 32) {v : Party → List (Share 1)} {bits : List (BitVec 1)}
    (h : SharesBits v bits) :
    Succeeds (fun p => (bitInject t ⟨p, sid⟩ (v p) : Proc R _)) fun r =>
      SharesOf r (bits.map (BitVec.setWidth t.bits)) := by
  refine (bitInject_succeeds sid h.length).mono fun r hr => ?_
  obtain ⟨xs, hx, rfl⟩ := h
  obtain ⟨ys, hys, hsum⟩ := hr.2 xs hx
  refine ⟨ys, hys, hsum.trans ?_⟩
  rw [List.map_map]
  rfl

/-- The indicator of a predicate. -/
def indicator (K : Nat) (b : Bool) : BitVec K := if b then 1 else 0

omit [Rng R] in
theorem Joint.of_assoc {α β γ : Type} {x : Party → Proc R α} {f : Party → α → Proc R β} {g : Party → β → Proc R γ}
    {σ σ' : Party → Prf R} {o : Party → Outcome γ} (h : Joint (fun p => (x p >>= f p) >>= g p) σ o σ') :
    Joint (fun p => x p >>= fun a => f p a >>= g p) σ o σ' := by
  simp only [bind_assoc] at h
  exact h

omit [Rng R] in
theorem Succeeds.of_assoc {α β γ : Type} {x : Party → Proc R α} {f : Party → α → Proc R β} {g : Party → β → Proc R γ}
    {Q : (Party → γ) → Prop} (h : Succeeds (fun p => (x p >>= f p) >>= g p) Q) :
    Succeeds (fun p => x p >>= fun a => f p a >>= g p) Q := by
  intro σ hσ
  obtain ⟨r, σ', hjoint, hrest⟩ := h σ hσ
  exact ⟨r, σ', hjoint.of_assoc, hrest⟩

/-- The two steps of a comparison with zero: the injected most significant bits. -/
theorem msbInject_sharesOf (t' : RingTy) (sid : BitVec 32) {v : Party → List (Share t.bits)}
    {secrets : List (BitVec t.bits)} (h : SharesOf v secrets) :
    Succeeds (fun p =>
      extractMsbBatch t ⟨p, sid⟩ (v p) >>= fun bits => (bitInject t' ⟨p, sid⟩ bits : Proc R _)) fun r =>
      SharesOf r (secrets.map fun x => indicator t'.bits x.msb) := by
  refine (extractMsbBatch_sharesBits sid h).bind fun r hr => (bitInject_sharesOf sid hr).mono fun r' hr' => ?_
  rw [List.map_map] at hr'
  have hbit : (BitVec.setWidth t'.bits ∘ fun x : BitVec t.bits => getBitAsBit x (t.bits - 1)) =
      fun x => indicator t'.bits x.msb := by
    funext x
    rw [Function.comp_apply, getBitAsBit_last]
    cases x.msb
    · exact BitVec.setWidth_zero ..
    · exact BitVec.eq_of_toNat_eq (by simp [indicator])
  rw [hbit] at hr'
  exact hr'

theorem msbInject_map {α : Type} (t' : RingTy) (sid : BitVec 32) {v : Party → List (Share t.bits)} {l : List α}
    {f : α → BitVec t.bits} (h : SharesOf v (l.map f)) :
    Succeeds (fun p =>
      extractMsbBatch t ⟨p, sid⟩ (v p) >>= fun bits => (bitInject t' ⟨p, sid⟩ bits : Proc R _)) fun r =>
      SharesOf r (l.map fun x => indicator t'.bits (f x).msb) := by
  refine (msbInject_sharesOf t' sid h).mono fun r hr => ?_
  rw [List.map_map] at hr
  exact hr

end Programs

end AmpcCommon.Protocol
