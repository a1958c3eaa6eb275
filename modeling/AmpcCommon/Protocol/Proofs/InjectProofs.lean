import AmpcCommon.Protocol.Proofs.SplitProofs

/-!
# Bit injection, proofs

The three roles hold a product of masks and bits each, such that the masks cancel. As in the two-way split
the roles are a rotation of the parties, so that one lemma about the three role programs is enough
(`injectAt_succeeds`).
-/

namespace AmpcCommon.Protocol

variable {K : Nat}

/-- The results `r` of the injection of the bits `v`. -/
def IsInject (n : Nat) (v : Party → List (Share 1)) (r : Party → List (Share K)) : Prop :=
  (∀ p, (r p).length = n) ∧ ∀ xs, Shares v xs →
    ∃ ys, Shares r ys ∧ ys.map Rep3.sum = xs.map fun x => x.xor.setWidth K

/-- An injection does not depend on which party is the first. -/
theorem IsInject.rotate {n : Nat} {v : Party → List (Share 1)} {r : Party → List (Share K)} (e : Party)
    (h : IsInject n (fun p => v (p - e)) r) : IsInject n v fun p => r (p + e) := by
  refine ⟨fun p => h.1 _, fun xs hx => ?_⟩
  obtain ⟨ys, hys, hsum⟩ := h.2 _ (hx.rotate e)
  refine ⟨ys.map fun y p => y (p + e), fun p => ?_, ?_⟩
  · show r (p + e) = _
    rw [hys, List.map_map]
    refine List.map_congr_left fun y _ => ?_
    show Rep3.view (p + e) y = ⟨y (p + e), y (p - 1 + e)⟩
    rw [sub_add_eq_add_sub]
    rfl
  · rw [List.map_map] at hsum
    rw [List.map_map]
    have hrot : (Rep3.sum ∘ fun (y : Rep3 K) p => y (p + e)) = Rep3.sum := by
      funext y
      exact Rep3.sum_rotate y e
    rw [hrot, hsum]
    refine List.map_congr_left fun x _ => ?_
    show (Rep3.xor fun p => x (p - e)).setWidth K = _
    simp only [sub_eq_add_neg]
    rw [Rep3.xor_rotate x (-e)]

/-! ## The messages -/

section Messages

variable (v : Party → List (Share 1)) (r01 r02 r12 : List (BitVec K))

/-- The message of the second role to the third one. -/
def injectX : List (BitVec K) := List.zipWith (fun bit r => (bit.a ^^^ bit.b).setWidth _ - r) (v 1) r01

/-- The message of the first role to the second one. -/
def injectY : List (BitVec K) :=
  List.zipWith (· - ·) (List.zipWith (· * ·) r01 ((v 0).map fun bit => bit.b.setWidth _)) r02

/-- The message of the third role to the first one. -/
def injectZ : List (BitVec K) :=
  List.zipWith (· - ·) (List.zipWith (· * ·) (injectX v r01) ((v 2).map fun bit => bit.a.setWidth _)) r12

/-- The results of the three roles. -/
def injectResults : Party → List (Share K) :=
  ![subTwice (List.zipWith (fun s1a s2b => (⟨s1a, 0⟩ + ⟨0, s2b⟩ : Share K)) r01
        ((v 0).map fun bit => bit.b.setWidth _))
      (List.zipWith (fun (s3 : Share K) s4b => s3 + ⟨0, s4b⟩) (fromAb (injectY v r01 r02) r02)
        (injectZ v r01 r12)),
    subTwice (fromAb (injectX v r01) r01)
      (List.zipWith (fun s3b s4a => (⟨0, s3b⟩ + ⟨s4a, 0⟩ : Share K)) (injectY v r01 r02) r12),
    subTwice (List.zipWith (fun s1b s2a => (⟨0, s1b⟩ + ⟨s2a, 0⟩ : Share K)) (injectX v r01)
        ((v 2).map fun bit => bit.a.setWidth _))
      (List.zipWith (fun s3a (s4 : Share K) => ⟨s3a, 0⟩ + s4) r02 (fromAb (injectZ v r01 r12) r12))]

end Messages

/-- The exclusive or of two bits in a ring. -/
theorem setWidth_xor_bit (u c : BitVec 1) :
    (u ^^^ c).setWidth K =
      u.setWidth K + c.setWidth K - u.setWidth K * c.setWidth K - u.setWidth K * c.setWidth K := by
  have hbit : ∀ x : BitVec 1, x = 0 ∨ x = 1 := by decide
  have hone : (1 : BitVec 1).setWidth K = 1 := BitVec.eq_of_toNat_eq (by simp)
  rcases hbit u with rfl | rfl
  · simp
  · rcases hbit c with rfl | rfl
    · simp
    · rw [BitVec.xor_self, hone]
      simp

/-- The three components of an injected bit. -/
def injectRep3 (x : Rep3 1) (r01 r02 r12 : BitVec K) : Rep3 K :=
  let u := (x 1 ^^^ x 0).setWidth K
  let b2 := (x 2).setWidth K
  let y := r01 * b2 - r02
  let z := (u - r01) * b2 - r12
  ![r01 - y - y, (u - r01) - r12 - r12, b2 - (r02 + z) - (r02 + z)]

/-- The masks cancel. -/
theorem sum_injectRep3 (x : Rep3 1) (r01 r02 r12 : BitVec K) :
    (injectRep3 x r01 r02 r12).sum = x.xor.setWidth K := by
  have hxor : x.xor = (x 1 ^^^ x 0) ^^^ x 2 := by
    unfold Rep3.xor
    rw [BitVec.xor_comm (x 1)]
  rw [hxor, setWidth_xor_bit]
  simp only [Rep3.sum, injectRep3, Matrix.cons_val]
  ring

theorem isInject_results {n : Nat} {v : Party → List (Share 1)} {r01 r02 r12 : List (BitVec K)}
    (hv : ∀ p, (v p).length = n) (h01 : r01.length = n) (h02 : r02.length = n) (h12 : r12.length = n) :
    IsInject n v (injectResults v r01 r02 r12) := by
  refine ⟨fun p => ?_, fun xs hx => ?_⟩
  · fin_cases p <;>
      simp [injectResults, subTwice, injectX, injectY, injectZ, hv, h01, h02, h12]
  · have hxn : xs.length = n := by rw [← hx.length 0, hv]
    obtain ⟨zs, rfl, rfl⟩ := exists_zip (h02.trans h12.symm)
    rw [List.length_map] at h02
    obtain ⟨ys, rfl, rfl⟩ := exists_zip (h01.trans h02.symm)
    rw [List.length_map] at h01
    obtain ⟨ws, rfl, rfl⟩ := exists_zip (hxn.trans h01.symm)
    refine ⟨ws.map fun w => injectRep3 w.1 w.2.1 w.2.2.1 w.2.2.2, fun p => ?_, ?_⟩
    · have hprev : (-1 : Party) = 2 := rfl
      fin_cases p <;>
        simp only [injectResults, subTwice, injectX, injectY, injectZ, hx 0, hx 1, hx 2, fromAb, List.map_map,
          List.zipWith_map, List.zipWith_self] <;>
        refine List.map_congr_left fun w _ => Share.ext ?_ ?_ <;>
        simp [Rep3.view, injectRep3, hprev]
    · rw [List.map_map, List.map_map]
      exact List.map_congr_left fun w _ => sum_injectRep3 _ _ _ _

/-! ## The programs -/

section Programs

variable {R : Type} [Rng R] (t : RingTy)

/-- What a party does, by its role. -/
def injectAt (q : Party) (input : List (Share 1)) : Proc R (List (Share t.bits)) :=
  match q with
  | 0 => bitInjectParty0 t input
  | 1 => bitInjectParty1 t input
  | 2 => bitInjectParty2 t input

theorem bitInject_eq (p : Party) (sid : BitVec 32) (input : List (Share 1)) :
    (bitInject t ⟨p, sid⟩ input : Proc R _) = injectAt t (p + Fin.ofNat 3 sid.toNat) input := by
  unfold bitInject injectAt
  rw [roleIndex_eq]
  generalize p + Fin.ofNat 3 sid.toNat = q
  fin_cases q <;> rfl

variable {t}

omit [Rng R] in
/-- The masked products do not fail. -/
theorem lift_mulSub {α : Type} {x y r : List (BitVec K)} (hxy : x.length = y.length) (hr : r.length = x.length)
    (k : List (BitVec K) → Proc R α) :
    (Proc.lift (vecMul x y) >>= fun prod => Proc.lift (vecSub prod r) >>= k) =
      k (List.zipWith (· - ·) (List.zipWith (· * ·) x y) r) := by
  have hmul : vecMul x y = .ok (List.zipWith (· * ·) x y) := vecZip_eq_ok hxy
  have hsub : vecSub (List.zipWith (· * ·) x y) r =
      .ok (List.zipWith (· - ·) (List.zipWith (· * ·) x y) r) :=
    vecZip_eq_ok (by rw [List.length_zipWith, ← hxy, Nat.min_self, hr])
  rw [hmul, Proc.lift_ok, pure_bind, hsub, Proc.lift_ok, pure_bind]

/-- The three roles run side by side. -/
theorem injectAt_succeeds {n : Nat} {v : Party → List (Share 1)} (hv : ∀ p, (v p).length = n) :
    Succeeds (fun q => (injectAt t q (v q) : Proc R _)) (IsInject n v) := by
  refine Succeeds.of_roles fun s0 s1 s2 => ?_
  show SucceedsFrom _ ![bitInjectParty0 t (v 0), bitInjectParty1 t (v 1), bitInjectParty2 t (v 2)] _
  simp only [bitInjectParty0, bitInjectParty1, bitInjectParty2, hv]
  refine SucceedsFrom.draw0 (SucceedsFrom.draw1 ?_)
  refine SucceedsFrom.pass12 ?_
  refine SucceedsFrom.draw2 (SucceedsFrom.draw2 ?_)
  simp only [Prf.genRandsBatch, Prf.genRandsMine, Prf.genRandsPrev, Prf.mine, Prf.prev]
  have h01 := length_fillVecRing t n s0
  have h12 := length_fillVecRing t n s1
  have h02 := length_fillVecRing t n s2
  rw [lift_mulSub (by simp [h01, hv]) (by rw [h01, h02]), lift_mulSub (by simp [h01, hv]) (by simp [h01, h12, hv])]
  refine SucceedsFrom.pass01 (SucceedsFrom.draw1 (SucceedsFrom.pass20 ?_))
  exact SucceedsFrom.pure (lockstep_vec _ _ _) (isInject_results hv h01 h02 h12)

theorem bitInject_succeeds (sid : BitVec 32) {n : Nat} {v : Party → List (Share 1)}
    (hv : ∀ p, (v p).length = n) :
    Succeeds (fun p => (bitInject t ⟨p, sid⟩ (v p) : Proc R _)) (IsInject n v) := by
  simp only [bitInject_eq]
  generalize Fin.ofNat 3 sid.toNat = e
  have hrot : Succeeds (fun q => (injectAt t q (v (q - e)) : Proc R _)) fun r =>
      IsInject n v fun p => r (p + e) :=
    (injectAt_succeeds fun p => hv _).mono fun r hr => hr.rotate e
  have hinject := hrot.rotate e
  simp only [add_sub_cancel_right] at hinject
  exact hinject

/-- **Bit injection is correct**, for every sharing, session and stream and in every schedule. -/
theorem bitInject_correct (t : RingTy) (sid : BitVec 32) (bits : List (BitVec 1)) (xs : List (Rep3 1))
    (hxs : xs.map Rep3.xor = bits) (σ : Party → Prf R) (hσ : Lockstep σ) :
    Network.Settles nextParty (fun p => bitInject t ⟨p, sid⟩ (xs.map (Rep3.view p)) (σ p)) fun o =>
      ∃ ys : List (Rep3 t.bits), (∀ p, (o p).1 = .ok (ys.map (Rep3.view p))) ∧ ys.length = bits.length ∧
        ys.map Rep3.sum = bits.map fun b => if b = 1 then 1 else 0 := by
  have hlen : ∀ p, (xs.map (Rep3.view p)).length = xs.length := fun p => List.length_map _
  obtain ⟨r, σ', hjoint, -, hr⟩ := bitInject_succeeds (t := t) sid hlen σ hσ
  obtain ⟨ys, hys, hsum⟩ := hr.2 xs fun p => rfl
  subst hxs
  refine hjoint.settles ⟨ys, fun p => congrArg Except.ok (hys p), ?_, ?_⟩
  · rw [List.length_map, ← hys.length 0, hr.1]
  · rw [hsum, List.map_map]
    refine List.map_congr_left fun x _ => ?_
    show x.xor.setWidth t.bits = if x.xor = 1 then 1 else 0
    have hbit : ∀ b : BitVec 1, b = 0 ∨ b = 1 := by decide
    rcases hbit x.xor with h | h
    · rw [h, if_neg (by decide)]
      exact BitVec.setWidth_zero ..
    · rw [h, if_pos rfl]
      exact BitVec.eq_of_toNat_eq (by simp)

theorem bitInject_correct_pair :
    Network.Settles nextParty
      (fun p => bitInject .ring48 ⟨p, 2⟩ ([![1, 0, 0], ![1, 0, 1]].map (Rep3.view p)) (stepStreams p)) fun o =>
      ∃ ys : List (Rep3 48), (∀ p, (o p).1 = .ok (ys.map (Rep3.view p))) ∧ ys.length = 2 ∧
        ys.map Rep3.sum = [1, 0] :=
  bitInject_correct .ring48 2 [1, 0] [![1, 0, 0], ![1, 0, 1]] rfl stepStreams lockstep_stepStreams

end Programs

end AmpcCommon.Protocol
