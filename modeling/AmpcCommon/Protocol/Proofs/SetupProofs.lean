import AmpcCommon.Protocol.Proofs.LockstepProofs
import AmpcCommon.Protocol.Setup

/-!
# Setting up a session, proofs

A party passes its seed to the next one, so the streams start in lockstep. The calls that follow run over the same
channels: a party may be in a call while another one still waits for the seed, but no message is read in the wrong
place.
-/

namespace AmpcCommon.Protocol

open Wire

/-! ## Seeds -/

@[simp] theorem bytes_xorSeeds (a b c : PrfKey) :
    (xorSeeds a b c).bytes = List.zipWith (· ^^^ ·) (List.zipWith (· ^^^ ·) a.bytes b.bytes) c.bytes := rfl

theorem PrfKey.ext_bytes {a b : PrfKey} (h : a.bytes = b.bytes) : a = b := by
  cases a
  cases b
  cases h
  rfl

/-- The order of the seeds does not matter. -/
theorem xorSeeds_rotate (a b c : PrfKey) : xorSeeds a b c = xorSeeds b c a := by
  refine PrfKey.ext_bytes (List.ext_getElem ?_ fun i hi hi' => ?_)
  · simp [a.size_eq, b.size_eq, c.size_eq]
  · simp only [bytes_xorSeeds, List.getElem_zipWith]
    ac_rfl

theorem xorSeeds_swap (a b c : PrfKey) : xorSeeds a b c = xorSeeds a c b := by
  refine PrfKey.ext_bytes (List.ext_getElem ?_ fun i hi hi' => ?_)
  · simp [a.size_eq, b.size_eq, c.size_eq]
  · simp only [bytes_xorSeeds, List.getElem_zipWith]
    ac_rfl

/-- The seed of all parties. -/
def sharedSeed (seeds : Party → PrfKey) : PrfKey := xorSeeds (seeds 0) (seeds 1) (seeds 2)

theorem xorSeeds_neighbours (seeds : Party → PrfKey) (p : Party) :
    xorSeeds (seeds p) (seeds (p - 1)) (seeds (p + 1)) = sharedSeed seeds := by
  unfold sharedSeed
  fin_cases p
  · show xorSeeds (seeds 0) (seeds 2) (seeds 1) = _
    exact xorSeeds_swap _ _ _
  · show xorSeeds (seeds 1) (seeds 0) (seeds 2) = _
    rw [xorSeeds_rotate, xorSeeds_swap]
  · show xorSeeds (seeds 2) (seeds 1) (seeds 0) = _
    rw [xorSeeds_rotate, xorSeeds_rotate, xorSeeds_swap]

/-! ## The set-up -/

variable {R : Type} [SeedableRng R] (seeds : Party → PrfKey)

/-- The streams after the set-up. -/
def setupStreams (p : Party) : Prf R := Prf.new (seeds p) (seeds (p - 1))

theorem SessionMsg.toRing_ring (m : RingMsg) : (SessionMsg.ring m).toRing = some m := rfl

theorem lockstep_setupStreams : Lockstep (setupStreams seeds : Party → Prf R) := by
  intro p
  show SeedableRng.fromSeed (seeds p) = SeedableRng.fromSeed (seeds (p + 1 - 1))
  rw [add_sub_cancel_right]

/-- All processes send a message on and receive one from the previous process. -/
theorem reaches_shiftForth {M α : Type} (m : Party → M) (k : Party → M → Process M α) :
    Transition.Reaches (Network.step nextParty) (Network.start fun p => .send .next (m p) (.recv .prev (k p)))
      (Network.start fun p => k p (m (p - 1))) := by
  have hshift : Transition.Reaches (Network.step nextParty) _ _ := Network.reaches_shift m k
  simp only [nextParty_symm_apply] at hshift
  exact hshift

/-- All processes send a message back and receive one from the next process. -/
theorem reaches_shiftBack {M α : Type} (m : Party → M) (k : Party → M → Process M α) :
    Transition.Reaches (Network.step nextParty) (Network.start fun p => .send .prev (m p) (.recv .next (k p)))
      (Network.start fun p => k p (m (p + 1))) :=
  (Network.reaches_sendAll .prev m (fun p => .recv .next (k p)) fun _ => []).trans
    (Network.reaches_recvAll .next (fun p => m (p + 1)) k fun _ => [])

theorem setupReplicatedPrf_completes :
    Network.Completes nextParty (fun p => setupReplicatedPrf (seeds p)) fun p =>
      (.ok (setupStreams seeds p) : Outcome (Prf R)) :=
  reaches_shiftForth (fun p => SessionMsg.prfKey (seeds p)) _

theorem setupSharedSeed_completes :
    Network.Completes nextParty (fun p => setupSharedSeed (seeds p)) fun _ => .ok (sharedSeed seeds) := by
  have hsecond := reaches_shiftBack (fun p => SessionMsg.prfKey (seeds p)) fun p m =>
    .pure (seedOf m >>= fun nextSeed => (.ok (xorSeeds (seeds p) (seeds (p - 1)) nextSeed) : Outcome PrfKey))
  have hseeds : ∀ p, (Process.pure (.ok (xorSeeds (seeds p) (seeds (p - 1)) (seeds (p + 1)))) :
      Process SessionMsg (Outcome PrfKey)) = .pure (.ok (sharedSeed seeds)) := by
    intro p
    rw [xorSeeds_neighbours]
  simp only [seedOf, Outcome.ok_bind, hseeds] at hsecond
  exact (reaches_shiftForth (fun p => SessionMsg.prfKey (seeds p)) _).trans hsecond

/-- **Setting up a session.** For all seeds and all calls that the parties make with the same public lengths, and in
every schedule: the set-up gives every party the stream of its own seed and that of the previous party, the calls that
follow over the same channels read no seed and leave the streams in lockstep, and the shared seed is the same at all
parties. -/
theorem runSession_correct (hends : SamplingEnds R) (overflowChecks : Bool) (sid : BitVec 32) (calls : List JointCall)
    (hpub : ∀ call ∈ calls, call.SamePublic) (hfits : ∀ call ∈ calls, call.ShuffleFits sid) :
    (Network.Settles nextParty (fun p => setupReplicatedPrf (seeds p)) fun o =>
      ∃ σ : Party → Prf R, Lockstep σ ∧ ∀ p, o p = .ok (σ p) ∧ σ p = Prf.new (seeds p) (seeds (p - 1))) ∧
    (∃ F, ∀ fuel, F ≤ fuel →
      Network.Settles nextParty (fun p => runSession overflowChecks fuel ⟨p, sid⟩ (seeds p) calls) fun o =>
        ∃ σ : Party → Prf R, Lockstep σ ∧ ∀ p, o p = some (σ p)) ∧
    Network.Settles nextParty (fun p => setupSharedSeed (seeds p)) fun o => ∀ p, o p = .ok (sharedSeed seeds) := by
  refine ⟨?_, ?_, (setupSharedSeed_completes seeds).settles fun _ => rfl⟩
  · exact (setupReplicatedPrf_completes seeds).settles
      ⟨setupStreams seeds, lockstep_setupStreams seeds, fun _ => ⟨rfl, rfl⟩⟩
  · obtain ⟨F, σ, hσ, hcalls⟩ := runCalls_completes hends overflowChecks hpub hfits
      (lockstep_setupStreams (R := R) seeds)
    refine ⟨F, fun fuel hfuel => ?_⟩
    have hembedded := (hcalls fuel hfuel).embed SessionMsg.toRing_ring
    have hsession : Network.Completes nextParty (fun p => runSession overflowChecks fuel ⟨p, sid⟩ (seeds p) calls)
        fun p => some (σ p) := (setupReplicatedPrf_completes (R := R) seeds).bind hembedded
    exact hsession.settles ⟨σ, hσ, fun _ => rfl⟩

/-- A generator that counts up from the first byte of the seed. -/
instance : SeedableRng StepRng where
  fromSeed key := ⟨(key.bytes.headD 0).toNat⟩

/-- The seeds of the parties: a byte, and zeros. -/
def byteSeeds (p : Party) : PrfKey := ⟨UInt8.ofNat p.val :: List.replicate 15 0, rfl⟩

/-- The signs of two shared numbers are extracted, and a share of zero is drawn. -/
def signCalls : List JointCall := [.extractMsbBatch .u16 fun p => [⟨5, 7⟩, ⟨p.val, 1⟩], .genZeroShare .u32]

theorem runSession_correct_bytes :
    (Network.Settles nextParty (fun p => setupReplicatedPrf (byteSeeds p)) fun o =>
      ∃ σ : Party → Prf StepRng, Lockstep σ ∧ ∀ p, o p = .ok (σ p) ∧
        σ p = Prf.new (byteSeeds p) (byteSeeds (p - 1))) ∧
    ∃ F, ∀ fuel, F ≤ fuel →
      Network.Settles nextParty (fun p => runSession true fuel ⟨p, 7#32⟩ (byteSeeds p) signCalls) fun o =>
        ∃ σ : Party → Prf StepRng, Lockstep σ ∧ ∀ p, o p = some (σ p) := by
  have hpub : ∀ call ∈ signCalls, call.SamePublic := by
    simp only [signCalls, List.forall_mem_cons]
    exact ⟨fun _ => rfl, trivial, by simp⟩
  have hfits : ∀ call ∈ signCalls, call.ShuffleFits 7#32 := by
    simp only [signCalls, List.forall_mem_cons]
    exact ⟨trivial, trivial, by simp⟩
  obtain ⟨hsetup, hcalls, -⟩ :=
    runSession_correct (R := StepRng) byteSeeds samplingEnds_stepRng true 7#32 signCalls hpub hfits
  exact ⟨hsetup, hcalls⟩

end AmpcCommon.Protocol
