import AmpcCommon.Protocol.Proofs.TransposeProofs
import AmpcCommon.Protocol.Proofs.SplitProofs
import AmpcCommon.Protocol.Proofs.AdderProofs

/-!
# Extraction of most significant bits, proofs

The bit planes of a vector of secrets (`planesOf`) and the bits of a vector of words (`bitsOf`) connect the
circuits, which work on words, with the secrets the words are packed from. With them the extraction is the
two-way split, the adder in every lane, and the removal of the padding.
-/

namespace AmpcCommon.Protocol

/-! ## Packed secrets -/

section Packed

variable {K : Nat}

/-- The bit planes of shared secrets, as the parties hold them after the transposition. -/
def planesOf (ys : List (Rep3 K)) : List (List (Rep3 64)) :=
  (List.range K).map fun i => (List.range (words ys.length)).map fun j q => plane (ys.map fun y => y q) i j

theorem isPlanes_transposePackU64 (t : RingTy) {n : Nat} {shares : List (Share t.bits)}
    (h : shares.length = n) : IsPlanes t.bits (words n) (transposePackU64 t shares) := by
  rw [transposePackU64_eq]
  refine ⟨by rw [List.length_map, List.length_range], fun x hx => ?_⟩
  obtain ⟨i, -, rfl⟩ := List.mem_map.mp hx
  rw [List.length_map, List.length_range, h]

theorem Shares.transposePackU64 {t : RingTy} {v : Party → List (Share t.bits)} {ys : List (Rep3 t.bits)}
    (h : Shares v ys) : SharesPlanes (fun p => transposePackU64 t (v p)) (planesOf ys) := by
  intro p
  show Protocol.transposePackU64 t (v p) = _
  rw [transposePackU64_eq, h p]
  have hside : ∀ f : Share t.bits → BitVec t.bits, (ys.map (Rep3.view p)).map f =
      ys.map fun y => f (y.view p) := fun f => List.map_map
  rw [hside, hside, List.length_map]
  unfold planesOf
  rw [List.map_map]
  refine List.map_congr_left fun i _ => ?_
  rw [Function.comp_apply, List.map_map]
  rfl

theorem xor_plane (ys : List (Rep3 K)) (i j n : Nat) (hn : n < 64) :
    (Rep3.xor fun q => plane (ys.map fun y => y q) i j).getLsbD n =
      ((ys.map Rep3.xor).getD (64 * j + n) 0).getLsbD i := by
  simp only [Rep3.xor, BitVec.getLsbD_xor, plane_bit _ _ _ hn]
  by_cases hlt : 64 * j + n < ys.length
  · simp [hlt, Rep3.xor]
  · simp [hlt]

/-- The lanes of a function of the words of the bit planes. -/
theorem map_lane_planesOf {g : Rep3 64 → BitVec 64} {ys : List (Rep3 K)} {x : BitVec K} {j n : Nat}
    (hbit : ∀ i, (g fun q => plane (ys.map fun y => y q) i j).getLsbD n = x.getLsbD i)
    (hout : ys.length ≤ 64 * j + n → x = 0) (hn : n < 64) :
    (planesOf ys).map (fun ws => lane j n (ws.map g)) = (List.range K).map x.getLsbD := by
  unfold planesOf
  rw [List.map_map]
  refine List.map_congr_left fun i _ => ?_
  simp only [Function.comp_apply, lane, List.map_map]
  by_cases hj : j < words ys.length
  · rw [← hbit, List.getD_eq_getElem _ _ (by rw [List.length_map, List.length_range]; exact hj),
      List.getElem_map, List.getElem_range]
    rfl
  · have hlen : ys.length ≤ 64 * j + n := by
      unfold words at hj
      omega
    rw [List.getD_eq_default _ _ (by rw [List.length_map, List.length_range]; omega), hout hlen]
    simp

/-- The lanes of the bit planes are the bits of the secrets. -/
theorem lanes_planesOf (ys : List (Rep3 K)) (j n : Nat) (hn : n < 64) :
    lanes j n (planesOf ys) = (List.range K).map ((ys.map Rep3.xor).getD (64 * j + n) 0).getLsbD := by
  unfold lanes opened
  rw [List.map_map]
  refine map_lane_planesOf (fun i => xor_plane ys i j n hn) (fun hlen => ?_) hn
  rw [List.getD_eq_default _ _ (by rw [List.length_map]; exact hlen)]

/-- The bits of shared words. -/
def bitsOf (zs : List (Rep3 K)) : List (Rep3 1) :=
  zs.flatMap fun z => (List.range K).map fun i q => getBitAsBit (z q) i

theorem Shares.convertToBits {v : Party → List (Share K)} {zs : List (Rep3 K)} (h : Shares v zs) :
    Shares (fun p => convertToBits (v p)) (bitsOf zs) := by
  intro p
  show Protocol.convertToBits (v p) = _
  rw [h p]
  unfold Protocol.convertToBits bitsOf
  rw [List.flatMap_map, List.map_flatMap]
  refine List.flatMap_congr fun z _ => ?_
  unfold Share.bits
  rw [List.map_map]
  rfl

theorem getBitAsBit_xor (x y : BitVec K) (i : Nat) :
    getBitAsBit (x ^^^ y) i = getBitAsBit x i ^^^ getBitAsBit y i := by
  unfold getBitAsBit
  rw [BitVec.getLsbD_xor, BitVec.ofBool_xor_ofBool]

/-- The bits of the secrets, in the order of the lanes. -/
theorem map_xor_bitsOf (zs : List (Rep3 64)) :
    (bitsOf zs).map Rep3.xor =
      (List.range (64 * zs.length)).map fun m => BitVec.ofBool (lane (m / 64) (m % 64) (zs.map Rep3.xor)) := by
  induction zs with
  | nil => rfl
  | cons z zs ih =>
    have hlen : 64 * (z :: zs).length = 64 + 64 * zs.length := by
      rw [List.length_cons]
      omega
    have hhead : ∀ m, m < 64 → BitVec.ofBool (lane (m / 64) (m % 64) ((z :: zs).map Rep3.xor)) =
        Rep3.xor fun q => getBitAsBit (z q) m := by
      intro m hm
      rw [Nat.div_eq_of_lt hm, Nat.mod_eq_of_lt hm]
      show getBitAsBit z.xor m = _
      simp only [Rep3.xor, getBitAsBit_xor]
    have htail : ∀ m, lane ((64 + m) / 64) ((64 + m) % 64) ((z :: zs).map Rep3.xor) =
        lane (m / 64) (m % 64) (zs.map Rep3.xor) := by
      intro m
      rw [Nat.add_div_left m (by omega), Nat.add_mod_left]
      rfl
    have hcons : bitsOf (z :: zs) = ((List.range 64).map fun i q => getBitAsBit (z q) i) ++ bitsOf zs := rfl
    rw [hcons, hlen, List.range_add, List.map_append, List.map_append, ih, List.map_map, List.map_map]
    congr 1
    · exact List.map_congr_left fun m hm => (hhead m (List.mem_range.mp hm)).symm
    · exact List.map_congr_left fun m _ => by rw [Function.comp_apply, htail]

/-- The bits of packed words, without the padding. -/
theorem map_xor_take_bitsOf {len : Nat} {zs : List (Rep3 64)} (hlen : zs.length = words len) {f : Nat → Bool}
    (hf : ∀ j n, n < 64 → lane j n (zs.map Rep3.xor) = f (64 * j + n)) :
    ((bitsOf zs).take len).map Rep3.xor = (List.range len).map fun m => BitVec.ofBool (f m) := by
  have hle : len ≤ 64 * zs.length := by
    rw [hlen]
    unfold words
    omega
  rw [List.map_take, map_xor_bitsOf, ← List.map_take, List.take_range, Nat.min_eq_left hle]
  refine List.map_congr_left fun m _ => ?_
  rw [hf _ _ (Nat.mod_lt m (by omega)), Nat.div_add_mod]

end Packed

/-! ## The extraction -/

section Extract

variable {R : Type} [Rng R] {t : RingTy}

theorem pushBits_eq {resLen : Nat} {bits res : List (Share 1)} (h : res.length < resLen) :
    pushBits resLen bits res = res ++ bits.take (resLen - res.length) := by
  induction bits generalizing res with
  | nil => rw [pushBits, List.take_nil, List.append_nil]
  | cons bit bits ih =>
    have hlen : (res ++ [bit]).length = res.length + 1 := by simp
    rw [pushBits]
    split
    next heq =>
      rw [show resLen - res.length = 1 by omega]
      rfl
    next hne =>
      rw [ih (by omega), hlen, show resLen - res.length = resLen - (res.length + 1) + 1 by omega,
        List.take_succ_cons, List.append_assoc]
      rfl

/-- The loops that collect the bits drop the padding. -/
theorem pushBits_nil {resLen : Nat} {bits : List (Share 1)} (h : bits.length = words resLen * 64) :
    pushBits resLen bits [] = bits.take resLen := by
  rcases Nat.eq_zero_or_pos resLen with rfl | hpos
  · cases List.length_eq_zero_iff.mp h
    rfl
  · rw [pushBits_eq (show ([] : List (Share 1)).length < resLen from hpos)]
    rfl

/-- The results `r` of the extraction from the vectors `v`. -/
def IsMsb (n : Nat) (v : Party → List (Share K)) (r : Party → List (Share 1)) : Prop :=
  (∀ p, (r p).length = n) ∧ ∀ xs, Shares v xs →
    ∃ bits, Shares r bits ∧ bits.map Rep3.xor = xs.map fun x => getBitAsBit x.sum (K - 1)

theorem exists_bits (t : RingTy) : ∃ m, t.bits = m + 2 := by
  cases t
  · exact ⟨14, rfl⟩
  · exact ⟨30, rfl⟩
  · exact ⟨46, rfl⟩
  · exact ⟨62, rfl⟩

/-- In every lane the adder adds the two parts of the secret of that lane. -/
theorem sumMsb_lanes {ys zs : List (Rep3 K)} {xs : List (Rep3 K)} (hK : ∃ m, K = m + 2)
    (hlen : ys.length = zs.length) (hsum : xorSums ys zs = xs.map Rep3.sum) (j n : Nat) (hn : n < 64) :
    sumMsb (lanes j n (planesOf ys)) (lanes j n (planesOf zs)) =
      ((xs.map Rep3.sum).getD (64 * j + n) 0).getLsbD (K - 1) := by
  obtain ⟨m, rfl⟩ := hK
  rw [lanes_planesOf _ _ _ hn, lanes_planesOf _ _ _ hn, sumMsb_range, ← hsum]
  unfold xorSums
  show _ = BitVec.getLsbD _ (m + 1)
  congr 1
  by_cases hlt : 64 * j + n < ys.length
  · have hlt' : 64 * j + n < zs.length := by omega
    simp [hlt, hlt']
  · have hlt' : ¬ 64 * j + n < zs.length := by omega
    simp [hlt, hlt']

/-- The packed results `r` of the extraction from the vectors `v`. -/
def IsPackedMsb (n : Nat) (v : Party → List (Share K)) (r : Party → List (Share 64)) : Prop :=
  (∀ p, (r p).length = words n) ∧ ∀ xs, Shares v xs → ∃ ws, Shares r ws ∧ ∀ j k, k < 64 →
    lane j k (ws.map Rep3.xor) = ((xs.map Rep3.sum).getD (64 * j + k) 0).getLsbD (K - 1)

theorem extractMsb_succeeds (sid : BitVec 32) {n : Nat} {v : Party → List (Share t.bits)}
    (hv : ∀ p, (v p).length = n) :
    Succeeds (fun p => (extractMsb t ⟨p, sid⟩ (v p) : Proc R _)) (IsPackedMsb n v) := by
  unfold extractMsb
  refine (twoWaySplit_succeeds (R := R) sid hv).bind fun split hsplit => ?_
  obtain ⟨m, hm⟩ := exists_bits t
  have h1 : ∀ p, IsPlanes (m + 2) (words n) (transposePackU64 t (split p).1) := by
    intro p
    rw [← hm]
    exact isPlanes_transposePackU64 t (hsplit.1 p).1
  have h2 : ∀ p, IsPlanes (m + 2) (words n) (transposePackU64 t (split p).2) := by
    intro p
    rw [← hm]
    exact isPlanes_transposePackU64 t (hsplit.1 p).2
  refine (binaryAdd2GetMsb_succeeds (t := .u64) h1 h2).mono fun packed hpacked => ⟨hpacked.1, fun xs hx => ?_⟩
  obtain ⟨ys, zs, hys, hzs, hsum⟩ := hsplit.2 xs hx
  obtain ⟨ws, hws, hlanes⟩ := hpacked.2 _ _ hys.transposePackU64 hzs.transposePackU64
  have hyn : ys.length = n := by rw [← hys.length 0, (hsplit.1 0).1]
  have hzn : zs.length = n := by rw [← hzs.length 0, (hsplit.1 0).2]
  exact ⟨ws, hws, fun j k hk =>
    (hlanes j k).trans (sumMsb_lanes ⟨m, hm⟩ (hyn.trans hzn.symm) hsum j k hk)⟩

theorem extractMsbBatch_succeeds (sid : BitVec 32) {n : Nat} {v : Party → List (Share t.bits)}
    (hv : ∀ p, (v p).length = n) :
    Succeeds (fun p => (extractMsbBatch t ⟨p, sid⟩ (v p) : Proc R _)) (IsMsb n v) := by
  simp only [extractMsbBatch, hv]
  refine (extractMsb_succeeds (R := R) sid hv).bind fun packed hpacked => ?_
  have hbits : ∀ p, (convertToBits (packed p)).length = words n * 64 := by
    intro p
    rw [length_convertToBits, hpacked.1 p]
  simp only [fun p => pushBits_nil (hbits p)]
  refine Succeeds.pure ⟨fun p => ?_, fun xs hx => ?_⟩
  · rw [List.length_take, hbits]
    unfold words
    omega
  · obtain ⟨ws, hws, hlanes⟩ := hpacked.2 xs hx
    have hxn : xs.length = n := by rw [← hx.length 0, hv]
    have hwn : ws.length = words n := by rw [← hws.length 0, hpacked.1]
    refine ⟨(bitsOf ws).take n, fun p => ?_, ?_⟩
    · show (convertToBits (packed p)).take n = _
      rw [List.map_take]
      exact congrArg (List.take n) (hws.convertToBits p)
    · rw [map_xor_take_bitsOf (f := fun m => ((xs.map Rep3.sum).getD m 0).getLsbD (t.bits - 1)) hwn hlanes]
      refine List.ext_getElem (by simp [hxn]) fun k hk hk' => ?_
      have hkx : k < xs.length := by simpa using hk'
      simp [getBitAsBit, hkx]

/-- **The extraction of most significant bits is correct**, for every sharing, session and stream and in
every schedule. -/
theorem extractMsbBatch_correct (t : RingTy) (sid : BitVec 32) (secrets : List (BitVec t.bits))
    (xs : List (Rep3 t.bits)) (hxs : xs.map Rep3.sum = secrets) (σ : Party → Prf R) (hσ : Lockstep σ) :
    Network.Settles nextParty (fun p => extractMsbBatch t ⟨p, sid⟩ (xs.map (Rep3.view p)) (σ p)) fun o =>
      ∃ bits : List (Rep3 1), (∀ p, (o p).1 = .ok (bits.map (Rep3.view p))) ∧
        bits.length = secrets.length ∧
        bits.map Rep3.xor = secrets.map fun x => getBitAsBit x (t.bits - 1) := by
  have hlen : ∀ p, (xs.map (Rep3.view p)).length = xs.length := fun p => List.length_map _
  obtain ⟨r, σ', hjoint, -, hr⟩ := extractMsbBatch_succeeds sid hlen σ hσ
  obtain ⟨bits, hbits, hxor⟩ := hr.2 xs fun p => rfl
  subst hxs
  refine hjoint.settles ⟨bits, fun p => ?_, ?_, ?_⟩
  · exact congrArg Except.ok (hbits p)
  · rw [List.length_map, ← hbits.length 0, hr.1]
  · rw [hxor, List.map_map]
    rfl

theorem extractMsbBatch_correct_pair :
    Network.Settles nextParty
      (fun p => extractMsbBatch .u16 ⟨p, 1⟩
        ([![0x7fff, 1, 3], ![2, 0xffff, 4]].map (Rep3.view p)) (stepStreams p)) fun o =>
      ∃ bits : List (Rep3 1), (∀ p, (o p).1 = .ok (bits.map (Rep3.view p))) ∧ bits.length = 2 ∧
        bits.map Rep3.xor = [1, 0] :=
  extractMsbBatch_correct .u16 1 [0x8003, 5] [![0x7fff, 1, 3], ![2, 0xffff, 4]] rfl stepStreams
    lockstep_stepStreams

end Extract

end AmpcCommon.Protocol
