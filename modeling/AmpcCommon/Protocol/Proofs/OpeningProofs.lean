import AmpcCommon.Protocol.Ops
import AmpcCommon.Protocol.Proofs.GateProofs

/-!
# Opening, proofs

An opening reveals the secrets to all three parties: every party receives the component it does not hold.
-/

namespace AmpcCommon.Protocol

variable {R : Type}

@[simp] theorem unpackBits_openBinMsg (shares : List (Share 1)) :
    unpackBits (openBinMsg shares) = .ok (shares.map Share.b) := by
  unfold openBinMsg
  split <;> rfl

/-- A party holds two components, and the previous party sends the third one. -/
theorem xor_components {K : Nat} (x : Rep3 K) (p : Party) :
    (x.view p).a ^^^ (x.view p).b ^^^ (x.view (p - 1)).b = x.xor := by
  unfold Rep3.xor
  fin_cases p
  · show x 0 ^^^ x 2 ^^^ x 1 = _
    ac_rfl
  · show x 1 ^^^ x 0 ^^^ x 2 = _
    ac_rfl
  · show x 2 ^^^ x 1 ^^^ x 0 = _
    ac_rfl

/-- Opened bits are the secrets, at all parties; the streams stay as they are. -/
theorem openBin_joint {v : Party → List (Share 1)} {bits : List (Rep3 1)} (h : Shares v bits) (σ : Party → Prf R) :
    Joint (fun p => openBin (v p)) σ (fun _ => .ok (bits.map Rep3.xor)) σ := by
  unfold openBin
  refine Joint.exchange (Joint.lift_bind (fun p => unpackBits_openBinMsg (v (p - 1))) ?_)
  have hlen : ∀ p, ((v (p - 1)).map Share.b).length = (v p).length := by
    intro p
    rw [List.length_map, h.length, h.length]
  have hopen : ∀ p, List.zipWith (fun s prevB => s.a ^^^ s.b ^^^ prevB) (v p) ((v (p - 1)).map Share.b) =
      bits.map Rep3.xor := by
    intro p
    rw [h p, h (p - 1), List.map_map, List.zipWith_map, List.zipWith_self]
    exact List.map_congr_left fun x _ => xor_components x p
  simp only [hlen, ne_eq, not_true_eq_false, if_false, hopen]
  exact Joint.pure _ σ

theorem openBin_succeeds {v : Party → List (Share 1)} {bits : List (Rep3 1)} (h : Shares v bits) :
    Succeeds (fun p => (openBin (v p) : Proc R _)) fun r => ∀ p, r p = bits.map Rep3.xor :=
  fun σ hσ => ⟨fun _ => bits.map Rep3.xor, σ, openBin_joint h σ, hσ, fun _ => rfl⟩

/-- A program whose shared result is opened. -/
theorem openBin_settles {x : Party → Proc R (List (Share 1))} {want : List (BitVec 1)}
    (h : Succeeds x fun r => ∃ bits, Shares r bits ∧ bits.map Rep3.xor = want) {σ : Party → Prf R}
    (hσ : Lockstep σ) : Network.Settles nextParty (fun p => (x p >>= fun bits => openBin bits) (σ p)) fun o =>
      ∀ p, (o p).1 = .ok want := by
  have hopen : Succeeds (fun p => x p >>= fun bits => openBin bits) fun r => ∀ p, r p = want := by
    refine h.bind fun r hr => ?_
    obtain ⟨bits, hbits, hxor⟩ := hr
    exact (openBin_succeeds hbits).mono fun r' hr' p => (hr' p).trans hxor
  refine (hopen.settles hσ).mono fun o ho p => ?_
  obtain ⟨r, σ', ho, -, hr⟩ := ho
  rw [ho p, hr p]

end AmpcCommon.Protocol
