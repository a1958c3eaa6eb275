import AmpcCommon.Protocol.Ops
import AmpcCommon.Protocol.Proofs.CircuitProofs
import AmpcCommon.Protocol.Proofs.MsbProofs
import AmpcCommon.Protocol.Proofs.InjectProofs

/-!
# Lifting, proofs

The three components of a secret of 16 bits are added by a circuit, whose two carries above the 16 bits are
what the sum of the components in a larger ring is too large by. The carries are injected into a ring, and
taken off the sum.
-/

namespace AmpcCommon.Protocol

/-! ## From words to bits -/

section Bits

variable {C : Prop} {len : Nat}

/-- The vectors `v` share the bits `f`. -/
def CarriesBits (C : Prop) (len : Nat) (v : Party → List (Share 1)) (f : Nat → Bool) : Prop :=
  (∀ p, (v p).length = len) ∧ (C → ∃ bits, Shares v bits ∧
    bits.map Rep3.xor = (List.range len).map fun i => BitVec.ofBool (f i))

/-- The bits of packed words, without the padding. -/
theorem Carries.convertToBits {v : Party → List (Share 64)} {f : Nat → Bool} (h : Carries C (words len) v f) :
    CarriesBits C len (fun p => (convertToBits (v p)).take len) f := by
  refine ⟨fun p => ?_, fun hC => ?_⟩
  · show ((Protocol.convertToBits (v p)).take len).length = len
    rw [List.length_take, length_convertToBits, h.1]
    unfold words
    omega
  · obtain ⟨zs, hzs, hlane⟩ := h.2 hC
    have hlen : zs.length = words len := by rw [← hzs.length 0, h.1]
    refine ⟨(bitsOf zs).take len, fun p => ?_, map_xor_take_bitsOf hlen fun j n hn => ?_⟩
    · rw [List.map_take]
      exact congrArg (List.take len) (hzs.convertToBits p)
    · rw [← hlane, Nat.mul_add_div (by omega), Nat.div_eq_of_lt hn, Nat.mul_add_mod, Nat.mod_eq_of_lt hn]
      rfl

end Bits

/-! ## The components of packed secrets -/

section Components

variable {C : Prop}

/-- One component of a shared secret, as a binary sharing. -/
def onlyPart {K : Nat} (e : Party) (x : Rep3 K) : Rep3 K := fun q => if q = e then x q else 0

theorem xor_onlyPart {K : Nat} (e : Party) (x : Rep3 K) : (onlyPart e x).xor = x e := by
  unfold Rep3.xor onlyPart
  fin_cases e <;> simp

/-- The three results of `a2b_pre`. -/
theorem a2bPre_view {K : Nat} (p : Party) (sid : BitVec 32) (x : Rep3 K) :
    a2bPre ⟨p, sid⟩ (x.view p) =
      ((onlyPart 0 x).view p, (onlyPart 1 x).view p, (onlyPart 2 x).view p) := by
  fin_cases p <;> rfl

/-- The results of `a2b_pre` on all planes carry the bits of the components. -/
theorem carriesPlanes_a2bPlanes (e : Party) (sid : BitVec 32) {t : RingTy} {n : Nat}
    (pick : Share 64 × Share 64 × Share 64 → Share 64)
    (hpick : ∀ p (x : Rep3 64), pick (a2bPre ⟨p, sid⟩ (x.view p)) = (onlyPart e x).view p)
    {v : Party → List (Share t.bits)} (hv : ∀ p, (v p).length = n) {xs : List (Rep3 t.bits)}
    (hC : C → Shares v xs) :
    CarriesPlanes C t.bits (words n) (fun p => a2bPlanes ⟨p, sid⟩ pick (transposePackU64 t (v p))) fun i =>
      (List.range t.bits).map ((xs.getD i 0) e).getLsbD := by
  refine ⟨fun p => ?_, fun h => ?_⟩
  · have hplanes := isPlanes_transposePackU64 t (hv p)
    refine ⟨(List.length_map _).trans hplanes.1, fun x hx => ?_⟩
    obtain ⟨y, hy, rfl⟩ := List.mem_map.mp hx
    rw [List.length_map, hplanes.2 y hy]
  · refine ⟨(planesOf xs).map (List.map (onlyPart e)), fun p => ?_, fun i => ?_⟩
    · have hx : transposePackU64 t (v p) = _ := (hC h).transposePackU64 p
      show a2bPlanes _ _ (transposePackU64 t (v p)) = _
      rw [hx]
      unfold a2bPlanes
      rw [List.map_map, List.map_map]
      refine List.map_congr_left fun plane _ => ?_
      simp only [Function.comp_apply, List.map_map]
      exact List.map_congr_left fun x _ => hpick p x
    · have hn : i % 64 < 64 := Nat.mod_lt _ (by omega)
      have hi : 64 * (i / 64) + i % 64 = i := Nat.div_add_mod i 64
      have hlanes : lanes (i / 64) (i % 64) ((planesOf xs).map (List.map (onlyPart e))) =
          (planesOf xs).map fun ws => lane (i / 64) (i % 64) (ws.map fun x => x e) := by
        simp only [lanes, opened, List.map_map]
        refine List.map_congr_left fun ws _ => ?_
        simp only [Function.comp_apply, List.map_map]
        exact congrArg _ (List.map_congr_left fun x _ => xor_onlyPart e x)
      rw [hlanes]
      refine map_lane_planesOf (fun k => ?_) (fun hlen => ?_) hn
      · rw [plane_bit _ _ _ hn, hi]
        by_cases hlt : i < xs.length
        · simp [hlt]
        · simp [hlt]
      · rw [List.getD_eq_default _ _ (by omega)]
        rfl

end Components

/-! ## The carries -/

section Carries

variable {R : Type} [Rng R] {C : Prop} {n m : Nat}
  {x1 x2 x3 : Party → List (List (Share RingTy.u64.bits))} {F1 F2 F3 : Nat → List Bool}

theorem getElem?_eq_getD {α : Type} {l : List (List α)} {k w : Nat} (h : IsPlanes m w l) (hk : k < m) :
    l[k]? = some (l.getD k []) := by
  rw [List.getD_eq_getElem _ _ (by rw [h.1]; exact hk), List.getElem?_eq_getElem]

/-- The two carries of the addition of three numbers with `m + 2` bits. -/
theorem binaryAdd3GetTwoCarries_carries (hm : 16 ≤ m + 2) (h1 : CarriesPlanes C (m + 2) (words n) x1 F1)
    (h2 : CarriesPlanes C (m + 2) (words n) x2 F2) (h3 : CarriesPlanes C (m + 2) (words n) x3 F3) :
    Succeeds (fun p => (binaryAdd3GetTwoCarries .u64 (x1 p) (x2 p) (x3 p) n : Proc R _)) fun r =>
      ∃ f1 f2, CarriesBits C n (fun p => (r p).1) f1 ∧ CarriesBits C n (fun p => (r p).2) f2 ∧
        (C → ∀ i, (f1 i).toNat + 2 * (f2 i).toNat =
          (BitSum.value (F1 i) + BitSum.value (F2 i) + BitSum.value (F3 i)) / 2 ^ (m + 2)) := by
  have h23 := h2.xorAssign h3
  have hs := h1.xor h23
  have h13 := h1.xorAssign h3
  have hlen1 := fun p => (h1.1 p).1
  have hlen2 := fun p => (h2.1 p).1
  have hlen3 := fun p => (h3.1 p).1
  simp only [binaryAdd3GetTwoCarries, hlen1, hlen2, hlen3, ne_eq, not_true_eq_false, or_self, if_false,
    not_lt.mpr hm]
  refine (transposedPackAnd_carries (R := R) h13 h23).bind fun c hc => ?_
  have hcx := hc.xorAssign h3
  have hs1 := fun p => getElem?_eq_getD (hs.1 p) (show 1 < m + 2 by omega)
  have hc0 := fun p => getElem?_eq_getD (hcx.1 p) (show 0 < m + 2 by omega)
  simp only [hs1, hc0]
  refine (andMany_carries (R := R) (hs.getD (by omega)) (hcx.getD (by omega))).bind fun k hk => ?_
  have hlast : ∀ p, (transposedPackXorAssign (c p) (x3 p)).getLast? =
      some ((transposedPackXorAssign (c p) (x3 p)).getD (m + 1) []) := by
    intro p
    rw [List.getLast?_eq_getElem?, (hcx.1 p).1]
    exact getElem?_eq_getD (hcx.1 p) (by omega)
  simp only [hlast]
  refine (carryLoop_carries (R := R) (hs.drop 2) (hcx.dropLast.drop 1) hk).bind fun carry hcarry => ?_
  have hmsb := hcx.getD (show m + 1 < m + 2 by omega)
  refine (andMany_carries (R := R) hmsb hcarry).bind fun res2 hres2 => ?_
  refine Succeeds.pure ⟨_, _, (hmsb.xorAssign hcarry).convertToBits, hres2.convertToBits, fun hC i => ?_⟩
  have hF2 : (F2 i).length = (F1 i).length := (h2.length hC i).trans (h1.length hC i).symm
  have hF3 : (F3 i).length = (F1 i).length := (h3.length hC i).trans (h1.length hC i).symm
  rw [← BitSum.value_sums_majorities hF2 hF3]
  exact BitSum.twoCarries ((BitSum.length_sums hF2 hF3).trans (h1.length hC i))
    ((BitSum.length_majorities hF2 hF3).trans (h1.length hC i))

end Carries

/-! ## The correction -/

section Correction

/-- Components that are shifted up may be taken from a smaller ring. -/
theorem sum_shl {t k L : Nat} (h : L ≤ t + k) (y : Rep3 t) :
    (Rep3.sum fun q => (y q).setWidth L <<< k) = y.sum.setWidth L <<< k := by
  have hmod : ∀ a, a % 2 ^ t * 2 ^ k % 2 ^ L = a * 2 ^ k % 2 ^ L := by
    intro a
    have hdvd : 2 ^ L ∣ a / 2 ^ t * (2 ^ t * 2 ^ k) := by
      rw [← Nat.pow_add]
      exact Dvd.dvd.mul_left (Nat.pow_dvd_pow 2 h) _
    have hsplit : a * 2 ^ k = a % 2 ^ t * 2 ^ k + a / 2 ^ t * (2 ^ t * 2 ^ k) := by
      conv_lhs => rw [← Nat.mod_add_div a (2 ^ t)]
      ring
    obtain ⟨c, hc⟩ := hdvd
    rw [hsplit, hc, Nat.add_mul_mod_self_left]
  refine BitVec.eq_of_toNat_eq ?_
  simp only [Rep3.sum, BitVec.toNat_add, BitVec.toNat_shiftLeft, BitVec.toNat_setWidth, Nat.shiftLeft_eq]
  simp only [Nat.add_mod_mod, Nat.mod_add_mod, Nat.mod_mul_mod, ← Nat.add_mul, hmod]

theorem shl_ofBool {t L k : Nat} (ht : 1 ≤ t) (b : Bool) :
    ((BitVec.ofBool b).setWidth t).setWidth L <<< k = BitVec.ofNat L (b.toNat * 2 ^ k) := by
  have hpow : 2 ^ 1 ≤ 2 ^ t := Nat.pow_le_pow_right (by decide) ht
  have hb : b.toNat < 2 ^ t := (Bool.toNat_lt b).trans_le hpow
  refine BitVec.eq_of_toNat_eq ?_
  simp only [BitVec.toNat_shiftLeft, BitVec.toNat_setWidth, Nat.shiftLeft_eq, BitVec.toNat_ofBool,
    BitVec.toNat_ofNat]
  rw [Nat.mod_eq_of_lt hb, Nat.mod_mul_mod]

/-- The sum of the components in the larger ring, without the carries. -/
theorem lift_sum {t L : Nat} (ht : 2 ≤ t) (hL : t + 16 = L) (x : Rep3 16) {b1 b2 : Bool}
    (hb : b1.toNat + 2 * b2.toNat = ((x 0).toNat + (x 1).toNat + (x 2).toNat) / 2 ^ 16) {y1 y2 : Rep3 t}
    (h1 : y1.sum = (BitVec.ofBool b1).setWidth t) (h2 : y2.sum = (BitVec.ofBool b2).setWidth t) :
    (Rep3.sum fun q => (x q).setWidth L - (y1 q).setWidth L <<< 16 - (y2 q).setWidth L <<< 17) =
      x.sum.setWidth L := by
  have hsub : (Rep3.sum fun q => (x q).setWidth L - (y1 q).setWidth L <<< 16 - (y2 q).setWidth L <<< 17) =
      (Rep3.sum fun q => (x q).setWidth L) - (Rep3.sum fun q => (y1 q).setWidth L <<< 16) -
        (Rep3.sum fun q => (y2 q).setWidth L <<< 17) := by
    simp only [Rep3.sum]
    ring
  have hsum : (Rep3.sum fun q => (x q).setWidth L) = x.sum.setWidth L + BitVec.ofNat L (b1.toNat * 2 ^ 16) +
      BitVec.ofNat L (b2.toNat * 2 ^ 17) := by
    have hdiv : (x 0).toNat + (x 1).toNat + (x 2).toNat =
        ((x 0).toNat + (x 1).toNat + (x 2).toNat) % 2 ^ 16 + b1.toNat * 2 ^ 16 + b2.toNat * 2 ^ 17 := by
      omega
    have hwide : (Rep3.sum fun q => (x q).setWidth L) =
        BitVec.ofNat L ((x 0).toNat + (x 1).toNat + (x 2).toNat) := by
      simp only [Rep3.sum, BitVec.ofNat_add, BitVec.ofNat_toNat]
    have hlow : x.sum.setWidth L = BitVec.ofNat L (((x 0).toNat + (x 1).toNat + (x 2).toNat) % 2 ^ 16) := by
      refine BitVec.eq_of_toNat_eq ?_
      simp [Rep3.sum, BitVec.toNat_add]
    rw [hwide, hdiv, BitVec.ofNat_add, BitVec.ofNat_add, hlow]
  rw [hsub, sum_shl (by omega), sum_shl (by omega), h1, h2, shl_ofBool (by omega),
    shl_ofBool (by omega), hsum]
  ring

end Correction

/-! ## The programs -/

section Programs

variable {R : Type} [Rng R] {C : Prop} {n : Nat}

theorem vecShareSubAssign_eq {K : Nat} {x y : List (Share K)} (h : x.length = y.length) :
    vecShareSubAssign x y = List.zipWith (· - ·) x y := by
  fun_induction vecShareSubAssign x y with
  | case1 x xs y ys ih =>
    rw [ih (by simpa using h)]
    rfl
  | case2 xs =>
    cases List.length_eq_zero_iff.mp h
    rfl
  | case3 ys => rfl

/-- The vectors `r` share the secrets of the vectors `v`, after the function `f`, if `C` holds. -/
def IsMapped {K L : Nat} (C : Prop) (n : Nat) (xs : List (Rep3 K)) (f : BitVec K → BitVec L)
    (r : Party → List (Share L)) : Prop :=
  (∀ p, (r p).length = n) ∧ (C → ∃ ys, Shares r ys ∧ ys.map Rep3.sum = xs.map fun x => f x.sum)

/-- The injected carries, shifted up, taken off the sums. -/
theorem isMapped_correction {t L : Nat} (ht : 2 ≤ t) (hL : t + 16 = L) {v : Party → List (Share 16)}
    (hv : ∀ p, (v p).length = n) {xs : List (Rep3 16)} (hC : C → Shares v xs)
    {b1 b2 : Party → List (Share 1)} {f1 f2 : Nat → Bool} (h1 : CarriesBits C n b1 f1)
    (h2 : CarriesBits C n b2 f2)
    (hcarry : C → ∀ i, (f1 i).toNat + 2 * (f2 i).toNat =
      (((xs.getD i 0) 0).toNat + ((xs.getD i 0) 1).toNat + ((xs.getD i 0) 2).toNat) / 2 ^ 16)
    {r : Party → List (Share t)} (hr : IsInject (n + n) (fun p => b1 p ++ b2 p) r) :
    IsMapped C n xs (fun x => x.setWidth L) fun p =>
      vecShareSubAssign (vecShareSubAssign
        ((v p).map fun share => ⟨share.a.setWidth L, share.b.setWidth L⟩)
        (((r p).take n).map (mulLift2k L 16))) (((r p).drop n).map (mulLift2k L 17)) := by
  refine ⟨fun p => by simp [hv], fun h => ?_⟩
  have hx := hC h
  obtain ⟨bs1, hbs1, hxor1⟩ := h1.2 h
  obtain ⟨bs2, hbs2, hxor2⟩ := h2.2 h
  have happ : Shares (fun p => b1 p ++ b2 p) (bs1 ++ bs2) := by
    intro p
    show b1 p ++ b2 p = _
    rw [hbs1 p, hbs2 p, List.map_append]
  obtain ⟨ys, hys, hsum⟩ := hr.2 _ happ
  have hxn : xs.length = n := by rw [← hx.length 0, hv]
  have hyn : ys.length = n + n := by rw [← hys.length 0, hr.1]
  have hvalues : ys.map Rep3.sum = (List.range n).map (fun i => (BitVec.ofBool (f1 i)).setWidth t) ++
      (List.range n).map (fun i => (BitVec.ofBool (f2 i)).setWidth t) := by
    have hmap : ∀ bs : List (Rep3 1), (bs.map fun x => x.xor.setWidth t) =
        (bs.map Rep3.xor).map fun x => x.setWidth t := by
      intro bs
      rw [List.map_map]
      rfl
    rw [hsum, List.map_append, hmap, hmap, hxor1, hxor2, List.map_map, List.map_map]
    rfl
  refine ⟨(List.range n).map fun i q => ((xs.getD i 0) q).setWidth L -
    ((ys.getD i 0) q).setWidth L <<< 16 - ((ys.getD (n + i) 0) q).setWidth L <<< 17, fun p => ?_, ?_⟩
  · have hlen : ((v p).map fun share => (⟨share.a.setWidth L, share.b.setWidth L⟩ : Share L)).length =
        (((r p).take n).map (mulLift2k L 16)).length := by
      rw [List.length_map, List.length_map, List.length_take, hv, hr.1]
      omega
    show vecShareSubAssign (vecShareSubAssign _ _) _ = _
    rw [vecShareSubAssign_eq hlen, vecShareSubAssign_eq (by simp [hv, hr.1]), hx p, hys p]
    refine List.ext_getElem (by simp [hxn, hyn]) fun i hi hi' => ?_
    have hin : i < n := by simpa using hi'
    have hiy : i < ys.length := by omega
    have hiy' : n + i < ys.length := by omega
    simp [hxn, hin, hiy, hiy', Rep3.view, mulLift2k, Share.shl]
    rfl
  · refine List.ext_getElem (by simp [hxn]) fun i hi hi' => ?_
    have hin : i < n := by simpa using hi
    have hiy : i < ys.length := by omega
    have hiy' : n + i < ys.length := by omega
    have hget1 := congrArg (fun l => l[i]?) hvalues
    have hget2 := congrArg (fun l => l[n + i]?) hvalues
    simp only [List.getElem?_map, List.getElem?_eq_getElem hiy, List.getElem?_eq_getElem hiy'] at hget1 hget2
    have hsum1 : (ys.getD i 0).sum = (BitVec.ofBool (f1 i)).setWidth t := by
      rw [List.getElem?_append_left (by simpa using hin)] at hget1
      simpa [hin, hiy] using hget1
    have hsum2 : (ys.getD (n + i) 0).sum = (BitVec.ofBool (f2 i)).setWidth t := by
      rw [List.getElem?_append_right (by simp)] at hget2
      simpa [hin, hiy'] using hget2
    rw [List.getElem_map, List.getElem_map, List.getElem_range, List.getElem_map,
      lift_sum ht hL (xs.getD i 0) (hcarry h i) hsum1 hsum2]
    simp [hxn, hin]

theorem liftTo_succeeds (tc : RingTy) (htc : 2 ≤ tc.bits) {L : Nat} (hL : tc.bits + 16 = L) (sid : BitVec 32)
    {v : Party → List (Share 16)} (hv : ∀ p, (v p).length = n) {xs : List (Rep3 16)} (hC : C → Shares v xs) :
    Succeeds (fun p => (liftTo tc L (mulLift2k L) ⟨p, sid⟩ (v p) : Proc R _))
      (IsMapped C n xs fun x => x.setWidth L) := by
  have h1 := carriesPlanes_a2bPlanes (t := .u16) 0 sid (·.1)
    (fun p x => by rw [a2bPre_view]) hv hC
  have h2 := carriesPlanes_a2bPlanes (t := .u16) 1 sid (·.2.1)
    (fun p x => by rw [a2bPre_view]) hv hC
  have h3 := carriesPlanes_a2bPlanes (t := .u16) 2 sid (·.2.2)
    (fun p x => by rw [a2bPre_view]) hv hC
  unfold liftTo
  simp only [hv]
  refine (binaryAdd3GetTwoCarries_carries (R := R) (m := 14) (by omega) h1 h2 h3).bind fun b hb => ?_
  obtain ⟨f1, f2, hb1, hb2, hcarry⟩ := hb
  have hlen : ∀ p, ((b p).1 ++ (b p).2).length = n + n := by
    intro p
    rw [List.length_append, hb1.1, hb2.1]
  refine (bitInject_succeeds (R := R) sid hlen).bind fun r hr => ?_
  have hle : ∀ p, ¬ (r p).length < n := by
    intro p
    rw [hr.1]
    omega
  simp only [hle, if_false]
  refine Succeeds.pure (isMapped_correction htc hL hv hC hb1 hb2 (fun h i => ?_) hr)
  have hi := hcarry h i
  rw [BitSum.value_range, BitSum.value_range, BitSum.value_range] at hi
  exact hi

theorem lift_succeeds (sid : BitVec 32) {v : Party → List (Share 16)} (hv : ∀ p, (v p).length = n)
    {xs : List (Rep3 16)} (hC : C → Shares v xs) :
    Succeeds (fun p => (lift ⟨p, sid⟩ (v p) : Proc R _)) (IsMapped C n xs fun x => x.setWidth 32) :=
  liftTo_succeeds .u16 (by decide) rfl sid hv hC

theorem liftToRing48_succeeds (sid : BitVec 32) {v : Party → List (Share 16)} (hv : ∀ p, (v p).length = n)
    {xs : List (Rep3 16)} (hC : C → Shares v xs) :
    Succeeds (fun p => (liftToRing48 ⟨p, sid⟩ (v p) : Proc R _)) (IsMapped C n xs fun x => x.setWidth 48) :=
  liftTo_succeeds .u32 (by decide) rfl sid hv hC

/-- A constant, added to a shared secret. -/
def addConst {K : Nat} (c : BitVec K) (x : Rep3 K) : Rep3 K := fun q => if q = 0 then x q + c else x q

theorem sum_addConst {K : Nat} (c : BitVec K) (x : Rep3 K) : (addConst c x).sum = x.sum + c := by
  simp only [Rep3.sum, addConst]
  show x 0 + c + x 1 + x 2 = x 0 + x 1 + x 2 + c
  ac_rfl

theorem Shares.addAssignConstRole {K : Nat} {v : Party → List (Share K)} {xs : List (Rep3 K)} (h : Shares v xs)
    (c : BitVec K) :
    Shares (fun p => (v p).map fun x => x.addAssignConstRole c p) (xs.map (addConst c)) := by
  intro p
  show (v p).map (fun x => x.addAssignConstRole c p) = _
  rw [h p, List.map_map, List.map_map]
  refine List.map_congr_left fun x _ => ?_
  fin_cases p <;> rfl

/-- The offset makes the lift a sign extension. -/
theorem signExtend_offset {L : Nat} (hL : 16 ≤ L) (x : BitVec 16) :
    (x + 1#16 <<< 15).setWidth L + BitVec.ofNat L (2 ^ L - 2 ^ 15) = x.signExtend L := by
  have hx : x.toNat < 65536 := x.isLt
  have hp : 65536 ≤ 2 ^ L := Nat.pow_le_pow_right (n := 2) (by decide) hL
  have hoff : 1#16 <<< 15 = 32768#16 := rfl
  refine BitVec.eq_of_toNat_eq ?_
  rw [hoff, BitVec.toNat_signExtend, BitVec.toNat_add, BitVec.toNat_setWidth_of_le hL, BitVec.toNat_add,
    BitVec.toNat_setWidth_of_le hL, BitVec.toNat_ofNat, BitVec.toNat_ofNat, BitVec.msb_eq_decide,
    Nat.mod_eq_of_lt (show 2 ^ L - 2 ^ 15 < 2 ^ L by omega)]
  generalize 2 ^ L = p at *
  generalize x.toNat = a at *
  by_cases hneg : 32768 ≤ a
  · have hlow : (a + 32768) % 65536 = a - 32768 := by omega
    have hlt : a - 32768 + (p - 32768) < p := by omega
    simp only [hneg, Nat.reducePow, Nat.reduceSub, Nat.reduceMod, decide_true, if_true, hlow]
    rw [Nat.mod_eq_of_lt hlt]
    omega
  · have hlow : (a + 32768) % 65536 = a + 32768 := by omega
    have hsum : a + 32768 + (p - 32768) = a + p := by omega
    simp only [hneg, Nat.reducePow, Nat.reduceSub, Nat.reduceMod, decide_false, hlow]
    rw [hsum, Nat.add_mod_right, Nat.mod_eq_of_lt (by omega)]
    rfl

omit [Rng R] in
theorem signedLiftWith_succeeds {L : Nat} (hL : 16 ≤ L)
    {liftShares : Session → List (Share 16) → Proc R (List (Share L))} (sid : BitVec 32)
    (hlift : ∀ {v : Party → List (Share 16)}, (∀ p, (v p).length = n) → ∀ {xs : List (Rep3 16)},
      (C → Shares v xs) →
      Succeeds (fun p => liftShares ⟨p, sid⟩ (v p)) (IsMapped C n xs fun x => x.setWidth L))
    {v : Party → List (Share 16)} (hv : ∀ p, (v p).length = n) {xs : List (Rep3 16)} (hC : C → Shares v xs) :
    Succeeds (fun p => signedLiftWith (liftShares ⟨p, sid⟩) ⟨p, sid⟩ (v p))
      (IsMapped C n xs fun x => x.signExtend L) := by
  unfold signedLiftWith
  refine (hlift (fun p => ?_) fun h => (hC h).addAssignConstRole (1#16 <<< 15)).bind fun r hr => ?_
  · rw [List.length_map, hv]
  · refine Succeeds.pure ⟨fun p => by rw [List.length_map, hr.1], fun h => ?_⟩
    obtain ⟨ys, hys, hsum⟩ := hr.2 h
    refine ⟨_, hys.addAssignConstRole _, ?_⟩
    have hadd : ∀ zs : List (Rep3 L), (zs.map (addConst (BitVec.ofNat L (2 ^ L - 2 ^ 15)))).map Rep3.sum =
        (zs.map Rep3.sum).map (· + BitVec.ofNat L (2 ^ L - 2 ^ 15)) := by
      intro zs
      rw [List.map_map, List.map_map]
      exact List.map_congr_left fun z _ => sum_addConst _ z
    rw [hadd, hsum, List.map_map, List.map_map]
    refine List.map_congr_left fun x _ => ?_
    show (addConst (1#16 <<< 15) x).sum.setWidth L + _ = _
    rw [sum_addConst, signExtend_offset hL]

omit [Rng R] in
/-- What a party returns, for a family of programs that map the secrets. -/
theorem IsMapped.settles {K L : Nat} {x : Party → Proc R (List (Share L))} {xs : List (Rep3 K)}
    {f : BitVec K → BitVec L} (h : Succeeds x (IsMapped True n xs f)) {σ : Party → Prf R} (hσ : Lockstep σ) :
    Network.Settles nextParty (fun p => x p (σ p)) fun o =>
      ∃ ys : List (Rep3 L), (∀ p, (o p).1 = .ok (ys.map (Rep3.view p))) ∧
        ys.map Rep3.sum = (xs.map Rep3.sum).map f := by
  obtain ⟨r, σ', hjoint, -, hr⟩ := h σ hσ
  obtain ⟨ys, hys, hsum⟩ := hr.2 trivial
  refine hjoint.settles ⟨ys, fun p => congrArg Except.ok (hys p), ?_⟩
  rw [hsum, List.map_map]
  rfl

/-- **Lifting is exact**, for every sharing, session and stream and in every schedule: the lifts keep the
secrets, and the signed lifts extend their sign. -/
theorem lift_correct (sid : BitVec 32) (secrets : List (BitVec 16)) (xs : List (Rep3 16))
    (hxs : xs.map Rep3.sum = secrets) (σ : Party → Prf R) (hσ : Lockstep σ) :
    (Network.Settles nextParty (fun p => lift ⟨p, sid⟩ (xs.map (Rep3.view p)) (σ p)) fun o =>
      ∃ ys : List (Rep3 32), (∀ p, (o p).1 = .ok (ys.map (Rep3.view p))) ∧
        (ys.map fun y => y.sum.toNat) = secrets.map BitVec.toNat) ∧
    (Network.Settles nextParty (fun p => liftToRing48 ⟨p, sid⟩ (xs.map (Rep3.view p)) (σ p)) fun o =>
      ∃ ys : List (Rep3 48), (∀ p, (o p).1 = .ok (ys.map (Rep3.view p))) ∧
        (ys.map fun y => y.sum.toNat) = secrets.map BitVec.toNat) ∧
    (Network.Settles nextParty (fun p => batchSignedLift ⟨p, sid⟩ (xs.map (Rep3.view p)) (σ p)) fun o =>
      ∃ ys : List (Rep3 32), (∀ p, (o p).1 = .ok (ys.map (Rep3.view p))) ∧
        ys.map Rep3.sum = secrets.map (BitVec.signExtend 32)) ∧
    (Network.Settles nextParty (fun p => batchSignedLiftRing48 ⟨p, sid⟩ (xs.map (Rep3.view p)) (σ p)) fun o =>
      ∃ ys : List (Rep3 48), (∀ p, (o p).1 = .ok (ys.map (Rep3.view p))) ∧
        ys.map Rep3.sum = secrets.map (BitVec.signExtend 48)) := by
  have hlen : ∀ p, (xs.map (Rep3.view p)).length = xs.length := fun p => List.length_map _
  have hx : True → Shares (fun p => xs.map (Rep3.view p)) xs := fun _ p => rfl
  have htoNat : ∀ L, 16 ≤ L → ∀ ys : List (Rep3 L), ys.map Rep3.sum = secrets.map (BitVec.setWidth L) →
      (ys.map fun y => y.sum.toNat) = secrets.map BitVec.toNat := by
    intro L hL ys hys
    have hmap := congrArg (List.map BitVec.toNat) hys
    rw [List.map_map, List.map_map] at hmap
    refine hmap.trans (List.map_congr_left fun x _ => ?_)
    exact BitVec.toNat_setWidth_of_le hL
  subst hxs
  refine ⟨?_, ?_, ?_, ?_⟩
  · exact (IsMapped.settles (lift_succeeds sid hlen hx) hσ).mono fun o ⟨ys, hys, hsum⟩ =>
      ⟨ys, hys, htoNat 32 (by decide) ys hsum⟩
  · exact (IsMapped.settles (liftToRing48_succeeds sid hlen hx) hσ).mono fun o ⟨ys, hys, hsum⟩ =>
      ⟨ys, hys, htoNat 48 (by decide) ys hsum⟩
  · exact IsMapped.settles (signedLiftWith_succeeds (by decide) sid (lift_succeeds sid) hlen hx) hσ
  · exact IsMapped.settles (signedLiftWith_succeeds (by decide) sid (liftToRing48_succeeds sid) hlen hx) hσ

theorem lift_correct_pair :
    (Network.Settles nextParty
      (fun p => lift ⟨p, 1⟩ ([![0xffff, 0xffff, 0xffff], ![7, 0, 0]].map (Rep3.view p)) (stepStreams p)) fun o =>
      ∃ ys : List (Rep3 32), (∀ p, (o p).1 = .ok (ys.map (Rep3.view p))) ∧
        (ys.map fun y => y.sum.toNat) = [65533, 7]) ∧
    (Network.Settles nextParty
      (fun p => batchSignedLift ⟨p, 1⟩ ([![0xffff, 0xffff, 0xffff], ![7, 0, 0]].map (Rep3.view p)) (stepStreams p))
      fun o => ∃ ys : List (Rep3 32), (∀ p, (o p).1 = .ok (ys.map (Rep3.view p))) ∧
        ys.map Rep3.sum = [0xfffffffd, 7]) := by
  obtain ⟨hlift, -, hsigned, -⟩ :=
    lift_correct 1 [0xfffd, 7] [![0xffff, 0xffff, 0xffff], ![7, 0, 0]] rfl stepStreams lockstep_stepStreams
  exact ⟨hlift, hsigned⟩

end Programs

end AmpcCommon.Protocol
