import AmpcCommon.Protocol.Calls
import AmpcCommon.Protocol.Proofs.LiftProofs
import AmpcCommon.Protocol.Proofs.ReshareProofs
import AmpcCommon.Protocol.Proofs.SecretProofs
import AmpcCommon.Protocol.Proofs.ShuffleProofs

/-!
# The streams stay in lockstep

Every call of the library that the three parties make together takes streams in lockstep to streams in
lockstep, whatever the data are and whether the call succeeds or fails (`JointCall.keepsLockstep`), and so do
all sequences of calls (`runCalls_lockstep`). The fuel for the sampling of permutations does not matter once
there is enough of it (`Proc.Le`).
-/

namespace AmpcCommon.Protocol

variable {R α β : Type}

/-- The parties return from `x`, with the streams in lockstep. -/
def KeepsLockstep (σ : Party → Prf R) (x : Party → Proc R α) : Prop :=
  ∃ o σ', Joint x σ o σ' ∧ Lockstep σ'

theorem Succeeds.keepsLockstep {x : Party → Proc R α} {Q : (Party → α) → Prop} (h : Succeeds x Q)
    {σ : Party → Prf R} (hσ : Lockstep σ) : KeepsLockstep σ x := by
  obtain ⟨r, σ', hjoint, hσ', -⟩ := h σ hσ
  exact ⟨_, σ', hjoint, hσ'⟩

/-- A call that all parties refuse. -/
theorem keepsLockstep_lift {x : Party → Proc R α} (hx : ∀ p, ∃ o, x p = Proc.lift o) {σ : Party → Prf R}
    (hσ : Lockstep σ) : KeepsLockstep σ x := by
  choose o hx using hx
  refine ⟨o, σ, ?_, hσ⟩
  unfold Joint
  simp only [hx]
  exact Network.Completes.pure _

theorem KeepsLockstep.discard {σ : Party → Prf R} {x : Party → Proc R α} (h : KeepsLockstep σ x) :
    KeepsLockstep σ fun p => Functor.discard (x p) := by
  obtain ⟨o, σ', hjoint, hσ'⟩ := h
  have hdone : ∀ p, Proc.andThen (fun _ => (pure () : Proc R Unit)) (o p, σ' p) =
      .pure ((o p).map fun _ => (), σ' p) := by
    intro p
    cases o p <;> rfl
  refine ⟨fun p => (o p).map fun _ => (), σ', ?_, hσ'⟩
  refine Network.Completes.bind (k := fun _ => Proc.andThen fun _ => (pure () : Proc R Unit)) hjoint ?_
  simp only [hdone]
  exact Network.Completes.pure _

/-! ## More fuel -/

/-- The second program does what the first one does, as far as the first one does not spin. -/
def Proc.Le (x y : Proc R α) : Prop := ∀ prf, Process.Le (x prf) (y prf)

theorem Proc.Le.refl (x : Proc R α) : Proc.Le x x := fun prf => .refl (x prf)

theorem Proc.Le.bind {x y : Proc R α} (h : Proc.Le x y) (f : α → Proc R β) : Proc.Le (x >>= f) (y >>= f) :=
  fun prf => (h prf).bind fun _ => .refl _

variable [Rng R]

theorem drawLoop_mono {fuel fuel' : Nat} (hle : fuel ≤ fuel') {n i : Nat} {perm : List Nat} {rng : R}
    {v : List Nat × R} (h : drawLoop fuel n i perm rng = some v) : drawLoop fuel' n i perm rng = some v := by
  induction n generalizing i perm rng with
  | zero => exact h
  | succ n ih =>
    rw [drawLoop] at h ⊢
    cases hs : sampleLoop (i + 1) fuel rng with
    | none =>
      rw [hs] at h
      cases h
    | some w =>
      rw [hs] at h
      rw [sampleLoop_mono hle hs]
      exact ih h

theorem genPermutation_le {fuel fuel' : Nat} (hle : fuel ≤ fuel') (size : Nat) :
    Proc.Le (genPermutation fuel size : Proc R _) (genPermutation fuel' size) := by
  intro prf
  rw [genPermutation_eq, genPermutation_eq]
  cases hA : drawPermutation fuel size prf.myPrf with
  | none => exact .spin _
  | some a =>
    cases hB : drawPermutation fuel size prf.prevPrf with
    | none => exact .spin _
    | some b =>
      have hA' : drawPermutation fuel' size prf.myPrf = some a := drawLoop_mono hle hA
      have hB' : drawPermutation fuel' size prf.prevPrf = some b := drawLoop_mono hle hB
      rw [hA', hB']
      exact .refl _

theorem shuffleAt_le {fuel fuel' : Nat} (hle : fuel ≤ fuel') (t : RingTy) (q : Party)
    (distances : List (IdDistance t.bits)) (size : Nat) :
    Proc.Le (shuffleAt t fuel q distances size : Proc R _) (shuffleAt t fuel' q distances size) := by
  have hgen : Proc.Le (genPermutation fuel (size % 2 ^ 32) : Proc R _) _ := genPermutation_le hle _
  fin_cases q
  · exact hgen.bind _
  · exact hgen.bind _
  · exact hgen.bind _

/-- The role is one of the three, unless the sum of the id and the index fails. -/
theorem shuffleRole_cases (overflowChecks : Bool) (s : Session) :
    (∃ q : Party, s.shuffleRole overflowChecks = .ok q.val) ∨ ∃ e, s.shuffleRole overflowChecks = .error e := by
  cases hsum : u32Add overflowChecks s.sessionId (BitVec.ofNat 32 s.ownRole.val) with
  | ok sum =>
    left
    refine ⟨⟨sum.toNat % 3, Nat.mod_lt _ (by decide)⟩, ?_⟩
    unfold Session.shuffleRole
    rw [hsum]
    rfl
  | error e =>
    right
    refine ⟨e, ?_⟩
    unfold Session.shuffleRole
    rw [hsum]
    rfl

theorem randomShuffleBatch_le {fuel fuel' : Nat} (hle : fuel ≤ fuel') (t : RingTy) (overflowChecks : Bool)
    (s : Session) (distances : List (List (IdDistance t.bits))) :
    Proc.Le (randomShuffleBatch t overflowChecks fuel s distances : Proc R _)
      (randomShuffleBatch t overflowChecks fuel' s distances) := by
  cases distances with
  | nil => exact Proc.Le.refl _
  | cons first rest =>
    unfold randomShuffleBatch
    rcases shuffleRole_cases overflowChecks s with ⟨q, hq⟩ | ⟨e, he⟩
    · simp only [hq, Proc.lift_ok, pure_bind]
      split
      · exact Proc.Le.refl _
      · have hrole := shuffleAt_le (R := R) hle t q (first :: rest).flatten first.length
        fin_cases q
        · exact hrole.bind _
        · exact hrole.bind _
        · exact hrole.bind _
    · -- the party fails before it draws a permutation
      simp only [he]
      exact Proc.Le.refl _

theorem JointCall.prog_le {fuel fuel' : Nat} (hle : fuel ≤ fuel') (overflowChecks : Bool) (s : Session)
    (call : JointCall) :
    Proc.Le (call.prog overflowChecks fuel s : Proc R Unit) (call.prog overflowChecks fuel' s) := by
  cases call with
  | randomShuffleBatch t distances => exact (randomShuffleBatch_le hle t overflowChecks s _).bind _
  | _ => exact Proc.Le.refl _

/-! ## The calls -/

section Calls

variable {t : RingTy} {σ : Party → Prf R} (hσ : Lockstep σ)

include hσ

theorem andMany_keepsLockstep {a b : Party → List (Share t.bits)} (ha : ∀ p, (a p).length = (a 0).length)
    (hb : ∀ p, (b p).length = (b 0).length) :
    KeepsLockstep σ fun p => (andMany t (a p) (b p) : Proc R _) := by
  by_cases hab : (a 0).length = (b 0).length
  · exact (andMany_succeeds ha fun p => (hb p).trans hab.symm).keepsLockstep hσ
  · refine keepsLockstep_lift (fun p => ?_) hσ
    have hne : (a p).length ≠ (b p).length := by
      rw [ha p, hb p]
      exact hab
    unfold andMany andManySend
    rw [if_pos hne]
    exact ⟨_, rfl⟩

theorem andManyGrouped_keepsLockstep {groups : Party → List (List (Share t.bits) × List (Share t.bits))}
    (hg : ∀ p, ((groups p).map fun g => (g.1.length, g.2.length)) =
      (groups 0).map fun g => (g.1.length, g.2.length)) :
    KeepsLockstep σ fun p => (andManyGrouped t (groups p) : Proc R _) := by
  have hleft : ∀ p, (groups p).map (fun g => g.1.length) = (groups 0).map fun g => g.1.length := by
    intro p
    have h := congrArg (List.map Prod.fst) (hg p)
    simp only [List.map_map] at h
    exact h
  have hright : ∀ p, (groups p).map (fun g => g.2.length) = (groups 0).map fun g => g.2.length := by
    intro p
    have h := congrArg (List.map Prod.snd) (hg p)
    simp only [List.map_map] at h
    exact h
  have hany : ∀ p, (groups p).any (fun g => g.1.length != g.2.length) =
      (groups 0).any fun g => g.1.length != g.2.length := by
    intro p
    have h := congrArg (fun l => l.any fun g : Nat × Nat => g.1 != g.2) (hg p)
    simp only [List.any_map] at h
    exact h
  cases hbad : (groups 0).any fun g => g.1.length != g.2.length with
  | false =>
    have heq : (groups 0).map (fun g => g.2.length) = (groups 0).map fun g => g.1.length := by
      refine List.map_congr_left fun g hg => ?_
      have h := List.any_eq_false.mp hbad g hg
      exact (by simpa using h : g.1.length = g.2.length).symm
    exact (andManyGrouped_succeeds hleft fun p => (hright p).trans heq).keepsLockstep hσ
  | true =>
    refine keepsLockstep_lift (fun p => ?_) hσ
    unfold andManyGrouped
    rw [if_pos ((hany p).trans hbad)]
    exact ⟨_, rfl⟩

theorem transposedPackAnd_keepsLockstep {x1 x2 : Party → List (List (Share t.bits))}
    (h1 : ∀ p, (x1 p).map List.length = (x1 0).map List.length)
    (h2 : ∀ p, (x2 p).map List.length = (x2 0).map List.length) :
    KeepsLockstep σ fun p => (transposedPackAnd t (x1 p) (x2 p) : Proc R _) := by
  have hlen : ∀ {x : Party → List (List (Share t.bits))}, (∀ p, (x p).map List.length = (x 0).map List.length) →
      ∀ p, (x p).length = (x 0).length := by
    intro x hx p
    simpa using congrArg List.length (hx p)
  by_cases hsizes : (x1 0).map List.length = (x2 0).map List.length
  · exact (transposedPackAnd_succeeds h1 fun p => (h2 p).trans hsizes.symm).keepsLockstep hσ
  · by_cases hcount : (x1 0).length = (x2 0).length
    · refine keepsLockstep_lift (fun p => ?_) hσ
      have hne : (x1 p).map List.length ≠ (x2 p).map List.length := by
        rw [h1 p, h2 p]
        exact hsizes
      have heq : (x1 p).length = (x2 p).length := by rw [hlen h1, hlen h2, hcount]
      unfold transposedPackAnd
      rw [if_neg (not_not.mpr heq), if_pos hne]
      exact ⟨_, rfl⟩
    · refine keepsLockstep_lift (fun p => ?_) hσ
      have hne : (x1 p).length ≠ (x2 p).length := by rwa [hlen h1, hlen h2]
      unfold transposedPackAnd
      rw [if_pos hne]
      exact ⟨_, rfl⟩

theorem conditionallySelectDistance_keepsLockstep
    {distances : Party → List (DistanceShare t.bits × DistanceShare t.bits)}
    {controlBits : Party → List (Share t.bits)} (hd : ∀ p, (distances p).length = (distances 0).length)
    (hc : ∀ p, (controlBits p).length = (controlBits 0).length) :
    KeepsLockstep σ fun p => (conditionallySelectDistance t (distances p) (controlBits p) : Proc R _) := by
  by_cases hlen : (distances 0).length = (controlBits 0).length
  · have heq : ∀ p, (distances p).length = (controlBits p).length := fun p =>
      (hd p).trans (hlen.trans (hc p).symm)
    have hprog : ∀ p, (conditionallySelectDistance t (distances p) (controlBits p) : Proc R _) =
        reshareMux t (distances 0).length 2 (controlBits p) (distanceField (distances p)) >>= fun products =>
          pure (tuples2 products) := by
      intro p
      unfold conditionallySelectDistance
      rw [if_neg (not_not.mpr (heq p)), hd p]
    simp only [hprog]
    have hbits : ∀ p, (distances 0).length ≤ (controlBits p).length := fun p => (hlen.trans (hc p).symm).le
    have hmux := reshareMux_succeeds (R := R) Nat.two_pos hbits fun p => distanceField (distances p)
    have hsel : Succeeds (fun p => (reshareMux t (distances 0).length 2 (controlBits p)
        (distanceField (distances p)) >>= fun products => pure (tuples2 products) : Proc R _)) fun _ => True :=
      hmux.bind fun r _ => Succeeds.pure trivial
    exact hsel.keepsLockstep hσ
  · refine keepsLockstep_lift (fun p => ?_) hσ
    have hne : (distances p).length ≠ (controlBits p).length := by rwa [hd p, hc p]
    unfold conditionallySelectDistance
    rw [if_pos hne]
    exact ⟨_, rfl⟩

omit hσ in
theorem exists_fuel_all (hends : SamplingEnds R) {size : Nat} (hlt : size < 2 ^ 32) (rng : Party → R) :
    ∃ fuel, ∀ p, ∃ v, drawPermutation fuel size (rng p) = some v := by
  choose F hF using fun p => exists_fuel_drawPermutation hends hlt (rng p)
  refine ⟨max (F 0) (max (F 1) (F 2)), fun p => Option.isSome_iff_exists.mp (hF p _ ?_)⟩
  fin_cases p
  · exact le_max_left _ _
  · exact (le_max_left _ _).trans (le_max_right _ _)
  · exact (le_max_right _ _).trans (le_max_right _ _)

/-- The shuffle, with enough fuel. -/
theorem randomShuffleBatch_keepsLockstep (hends : SamplingEnds R) (overflowChecks : Bool) {sid : BitVec 32}
    {distances : Party → List (List (IdDistance t.bits))}
    (hd : ∀ p, (distances p).map List.length = (distances 0).map List.length)
    (hfits : (JointCall.randomShuffleBatch t distances).ShuffleFits sid) :
    ∃ fuel, KeepsLockstep σ fun p => (randomShuffleBatch t overflowChecks fuel ⟨p, sid⟩ (distances p) : Proc R _) := by
  have hlen : ∀ p, (distances p).length = (distances 0).length := by
    intro p
    simpa using congrArg List.length (hd p)
  cases hzero : distances 0 with
  | nil =>
    refine ⟨0, keepsLockstep_lift (fun p => ?_) hσ⟩
    have hnil : distances p = [] := by
      rw [← List.length_eq_zero_iff, hlen, hzero, List.length_nil]
    rw [hnil]
    exact ⟨_, rfl⟩
  | cons first rest =>
    by_cases heq : ∀ batch ∈ distances 0, batch.length = first.length
    · obtain ⟨hsid, hpos, hlt⟩ := hfits first.length (by rw [hzero]; exact List.cons_ne_nil _ _) heq
      have hshape : ∀ p, (distances p).map List.length = List.replicate (distances 0).length first.length := by
        intro p
        rw [hd p, List.map_congr_left heq, List.map_const']
      have hcount : 0 < (distances 0).length := by
        rw [hzero]
        exact Nat.succ_pos _
      obtain ⟨fuel, hfuel⟩ := exists_fuel_all hends hlt fun p => (σ p).myPrf
      refine ⟨fuel, ?_⟩
      obtain ⟨⟨pi01, s0⟩, h01⟩ := hfuel (0 - Fin.ofNat 3 sid.toNat)
      obtain ⟨⟨pi12, s1⟩, h12⟩ := hfuel (1 - Fin.ofNat 3 sid.toNat)
      obtain ⟨⟨pi20, s2⟩, h20⟩ := hfuel (2 - Fin.ofNat 3 sid.toNat)
      obtain ⟨r, σ', hjoint, hσ', -⟩ := randomShuffleBatch_succeeds (C := False) overflowChecks hsid hcount
        hpos hlt hshape (List.forall_mem_nil _) False.elim hσ h01 h12 h20
      exact ⟨_, σ', hjoint, hσ'⟩
    · refine ⟨0, keepsLockstep_lift (fun p => ?_) hσ⟩
      cases hp : distances p with
      | nil =>
        have h := hlen p
        rw [hp, hzero] at h
        cases h
      | cons first' rest' =>
        -- the first lengths agree, and one of the others is different
        have hmap := hd p
        rw [hp, hzero] at hmap
        have hfirst : first'.length = first.length := (List.cons.inj hmap).1
        have hany : ((first' :: rest').any fun batch => batch.length != first'.length) = true := by
          push Not at heq
          obtain ⟨batch, hmem, hne⟩ := heq
          have hmem' : batch.length ∈ (first' :: rest').map List.length := by
            rw [hmap, ← hzero]
            exact List.mem_map_of_mem hmem
          obtain ⟨batch', hbatch', hlen'⟩ := List.mem_map.mp hmem'
          refine List.any_eq_true.mpr ⟨batch', hbatch', ?_⟩
          rw [hlen', hfirst]
          exact bne_iff_ne.mpr hne
        unfold randomShuffleBatch
        simp only [hany, if_true]
        exact ⟨_, rfl⟩

/-- Every call takes streams in lockstep to streams in lockstep. -/
theorem JointCall.keepsLockstep (hends : SamplingEnds R) (overflowChecks : Bool) {sid : BitVec 32} {call : JointCall}
    (hpub : call.SamePublic) (hfits : call.ShuffleFits sid) :
    ∃ fuel, KeepsLockstep σ fun p => (call.prog overflowChecks fuel ⟨p, sid⟩ : Proc R Unit) := by
  cases call with
  | galoisRingToRep3 items => exact ⟨0, ((galoisRingToRep3_succeeds hpub).keepsLockstep hσ).discard⟩
  | andMany t a b => exact ⟨0, (andMany_keepsLockstep hσ hpub.1 hpub.2).discard⟩
  | andManyGrouped t groups => exact ⟨0, (andManyGrouped_keepsLockstep hσ hpub).discard⟩
  | transposedPackAnd t x1 x2 => exact ⟨0, (transposedPackAnd_keepsLockstep hσ hpub.1 hpub.2).discard⟩
  | twoWaySplit t input => exact ⟨0, ((twoWaySplit_succeeds sid hpub).keepsLockstep hσ).discard⟩
  | extractMsbBatch t x => exact ⟨0, ((extractMsbBatch_succeeds sid hpub).keepsLockstep hσ).discard⟩
  | bitInject t input => exact ⟨0, ((bitInject_succeeds sid hpub).keepsLockstep hσ).discard⟩
  | lift shares =>
    have hlift := lift_succeeds (R := R) sid hpub fun h : False => (h.elim : Shares shares [])
    exact ⟨0, (hlift.keepsLockstep hσ).discard⟩
  | liftToRing48 shares =>
    have hlift := liftToRing48_succeeds (R := R) sid hpub fun h : False => (h.elim : Shares shares [])
    exact ⟨0, (hlift.keepsLockstep hσ).discard⟩
  | reshareProducts t n expr => exact ⟨0, ((reshareProducts_succeeds n expr).keepsLockstep hσ).discard⟩
  | conditionallySelectDistance t distances controlBits =>
    exact ⟨0, (conditionallySelectDistance_keepsLockstep hσ hpub.1 hpub.2).discard⟩
  | randomShuffleBatch t distances =>
    obtain ⟨fuel, hshuffle⟩ := randomShuffleBatch_keepsLockstep hσ hends overflowChecks hpub hfits
    exact ⟨fuel, hshuffle.discard⟩
  | genZeroShare t => exact ⟨0, ((genZeroShare_succeeds t).keepsLockstep hσ).discard⟩

end Calls

/-! ## Sequences of calls -/

theorem runCalls_completes (hends : SamplingEnds R) (overflowChecks : Bool) {sid : BitVec 32} {calls : List JointCall}
    (hpub : ∀ call ∈ calls, call.SamePublic) (hfits : ∀ call ∈ calls, call.ShuffleFits sid) {σ : Party → Prf R}
    (hσ : Lockstep σ) :
    ∃ F σ', Lockstep σ' ∧ ∀ fuel, F ≤ fuel →
      Network.Completes nextParty (fun p => runCalls overflowChecks fuel ⟨p, sid⟩ calls (σ p)) σ' := by
  induction calls generalizing σ with
  | nil => exact ⟨0, σ, hσ, fun _ _ => Network.Completes.pure σ⟩
  | cons call calls ih =>
    obtain ⟨F₁, o, σ₁, hjoint, hσ₁⟩ :=
      JointCall.keepsLockstep hσ hends overflowChecks (hpub call List.mem_cons_self) (hfits call List.mem_cons_self)
    obtain ⟨F₂, σ', hσ', hrest⟩ := ih (fun c hc => hpub c (List.mem_cons_of_mem _ hc))
      (fun c hc => hfits c (List.mem_cons_of_mem _ hc)) hσ₁
    refine ⟨max F₁ F₂, σ', hσ', fun fuel hfuel => ?_⟩
    have hcall : Network.Completes nextParty (fun p => (call.prog overflowChecks fuel ⟨p, sid⟩ : Proc R Unit) (σ p))
        fun p => (o p, σ₁ p) :=
      Network.Completes.of_le (fun p => JointCall.prog_le (le_of_max_le_left hfuel) overflowChecks _ call (σ p)) hjoint
    exact hcall.bind (hrest fuel (le_of_max_le_right hfuel))

/-- **The streams stay in lockstep.** The parties return from every sequence of calls, whatever the order of
their steps is, and then every party and the next one hold the same state of the stream they share. -/
theorem runCalls_lockstep (hends : SamplingEnds R) (overflowChecks : Bool) (sid : BitVec 32) (calls : List JointCall)
    (hpub : ∀ call ∈ calls, call.SamePublic) (hfits : ∀ call ∈ calls, call.ShuffleFits sid) (σ : Party → Prf R)
    (hσ : Lockstep σ) :
    ∃ F, ∀ fuel, F ≤ fuel →
      Network.Settles nextParty (fun p => runCalls overflowChecks fuel ⟨p, sid⟩ calls (σ p)) Lockstep := by
  obtain ⟨F, σ', hσ', hcompletes⟩ := runCalls_completes hends overflowChecks hpub hfits hσ
  exact ⟨F, fun fuel hfuel => (hcompletes fuel hfuel).settles hσ'⟩

/-- Shares are made of additive ones, two triples are shuffled, and a share of zero is drawn. -/
def threeCalls : List JointCall :=
  [.galoisRingToRep3 fun _ => [1, 2], .randomShuffleBatch .u16 fun p => [twoTriples.map (viewTriple p)],
    .genZeroShare .u32]

theorem runCalls_lockstep_three :
    ∃ F, ∀ fuel, F ≤ fuel →
      Network.Settles nextParty (fun p => runCalls true fuel ⟨p, 7#32⟩ threeCalls (stepStreams p)) Lockstep := by
  refine runCalls_lockstep samplingEnds_stepRng true 7#32 threeCalls ?_ ?_ stepStreams lockstep_stepStreams
  · intro call hcall
    fin_cases hcall
    · exact fun _ => rfl
    · exact fun _ => rfl
    · trivial
  · intro call hcall
    fin_cases hcall
    · trivial
    · intro size _ hsize
      have htwo : 2 = size := hsize _ List.mem_cons_self
      subst htwo
      decide
    · trivial

/-! ## A session whose roles wrap -/

/-- The streams of a party that has returned, or that is left waiting for a message: the ones it holds when this
receive fails. -/
def heldStreams : Process RingMsg (Prf R) → Option (Prf R)
  | .pure prf => some prf
  | .recv _ k =>
    match k (.vec .u32 []) with
    | .pure prf => some prf
    | _ => none
  | _ => none

/-- What the party `p` holds of one batch with one triple. -/
def oneTriple (p : Party) : List (List (IdDistance RingTy.u16.bits)) :=
  [[viewTriple p (![1, 2, 3], ![4, 5, 6], ![7, 8, 9])]]

theorem runCalls_single (fuel : Nat) (s : Session) (prf : Prf R) :
    runCalls false fuel s [.randomShuffleBatch .u16 oneTriple] prf =
      (randomShuffleBatch .u16 false fuel s (oneTriple s.ownRole) prf).bind fun o => .pure o.2 := by
  show ((randomShuffleBatch .u16 false fuel s (oneTriple s.ownRole) prf).bind
    (Proc.andThen fun _ => pure ())).bind _ = _
  rw [Process.bind_assoc]
  congr 1
  funext ⟨o, prf⟩
  cases o <;> rfl

/-- In the session `2 ^ 32 - 1` one party of a build without overflow checks waits forever, and the streams it holds are
behind those of the next party. -/
theorem runCalls_maxSession :
    (¬ ∃ F, ∀ fuel, F ≤ fuel →
      Network.Settles nextParty
        (fun p => runCalls false fuel ⟨p, 4294967295#32⟩ [.randomShuffleBatch .u16 oneTriple] (stepStreams p))
        Lockstep) ∧
    ∃ t, Transition.run (Network.step nextParty)
        (Network.start fun p =>
          runCalls false 1 ⟨p, 4294967295#32⟩ [.randomShuffleBatch .u16 oneTriple] (stepStreams p))
        [0, 1, 2, 2, 2] = some t ∧
      (heldStreams (t.proc 2)).map (·.myPrf.v) = some 5 ∧ (heldStreams (t.proc 0)).map (·.prevPrf.v) = some 8 := by
  constructor
  · rintro ⟨F, hF⟩
    obtain ⟨r, hcompletes, -⟩ := (hF F le_rfl).completes
    apply hcompletes.not_neverDone
    simp only [runCalls_single]
    have hmax : ¬ (4294967295#32).toNat + 2 < 2 ^ 32 := by decide
    have hnever := randomShuffleBatch_wraps F hmax Nat.one_pos Nat.one_pos
      (by decide) (fun p => show (oneTriple p).map List.length = List.replicate 1 1 from rfl) stepStreams
    exact hnever.bind_pure fun p o => ⟨o.2, rfl⟩
  · have hrun : ((Transition.run (Network.step nextParty)
        (Network.start fun p =>
          runCalls false 1 ⟨p, 4294967295#32⟩ [.randomShuffleBatch .u16 oneTriple] (stepStreams p))
        [0, 1, 2, 2, 2]).map fun t =>
          ((heldStreams (t.proc 2)).map (·.myPrf.v), (heldStreams (t.proc 0)).map (·.prevPrf.v))) =
        some (some 5, some 8) := by
      decide +kernel
    obtain ⟨t, ht, hheld⟩ := Option.map_eq_some_iff.mp hrun
    exact ⟨t, ht, (Prod.mk.inj hheld).1, (Prod.mk.inj hheld).2⟩

end AmpcCommon.Protocol
