import AmpcCommon.Base.GroupReduction
import AmpcCommon.Protocol.Distances
import AmpcCommon.Protocol.Proofs.ReshareProofs
import AmpcCommon.Protocol.Proofs.SecretProofs

/-!
# Distances, proofs

What the parties hold of a list of distances is followed by the values of the distances (`DistancesOf`). A pair is
reduced to one of its members, by the sign of the cross product; where the products do not overflow this is the
smaller distance. The group reduction is a reduction of groups in rounds with this selection (`selects_minDistance`),
so that it leaves a minimum of every group.
-/

namespace AmpcCommon.Protocol

open GroupReduction

variable {K : Nat}

/-- The components of a shared distance: those of the code and those of the mask. -/
abbrev Rep3Distance (K : Nat) := Rep3 K × Rep3 K

/-- What the party `p` holds of a shared distance. -/
def Rep3Distance.view (p : Party) (z : Rep3Distance K) : DistanceShare K := ⟨z.1.view p, z.2.view p⟩

/-- The code and the mask that are shared. -/
def Rep3Distance.value (z : Rep3Distance K) : BitVec K × BitVec K := (z.1.sum, z.2.sum)

/-- The parties hold shares of the distances. -/
def DistancesOf (v : Party → List (DistanceShare K)) (ds : List (BitVec K × BitVec K)) : Prop :=
  ∃ zs : List (Rep3Distance K), (∀ p, v p = zs.map (Rep3Distance.view p)) ∧ zs.map Rep3Distance.value = ds

/-- The same for pairs of distances. -/
def PairsOf (v : Party → List (DistancePair K)) (ds : List ((BitVec K × BitVec K) × (BitVec K × BitVec K))) : Prop :=
  ∃ qs : List (Rep3Distance K × Rep3Distance K), (∀ p, v p = qs.map fun q => (q.1.view p, q.2.view p)) ∧
    qs.map (fun q => (q.1.value, q.2.value)) = ds

theorem DistancesOf.length {v : Party → List (DistanceShare K)} {ds : List (BitVec K × BitVec K)}
    (h : DistancesOf v ds) (p : Party) : (v p).length = ds.length := by
  obtain ⟨zs, hz, rfl⟩ := h
  rw [hz, List.length_map, List.length_map]

theorem PairsOf.length {v : Party → List (DistancePair K)} {ds : List ((BitVec K × BitVec K) × (BitVec K × BitVec K))}
    (h : PairsOf v ds) (p : Party) : (v p).length = ds.length := by
  obtain ⟨qs, hq, rfl⟩ := h
  rw [hq, List.length_map, List.length_map]

/-! ## Products -/

/-- The local products of the parties are all nine products of the components. -/
theorem sum_mul (x y : Rep3 K) : (Rep3.sum fun p => (x.view p).mul (y.view p)) = x.sum * y.sum := by
  have h0 : (0 : Party) - 1 = 2 := by decide
  have h1 : (1 : Party) - 1 = 0 := by decide
  have h2 : (2 : Party) - 1 = 1 := by decide
  simp only [Rep3.sum, Rep3.view, Share.mul, h0, h1, h2]
  ring

theorem sum_add (f g : Party → BitVec K) : (Rep3.sum fun p => f p + g p) = Rep3.sum f + Rep3.sum g := by
  unfold Rep3.sum
  ring

theorem sum_sub (f g : Party → BitVec K) : (Rep3.sum fun p => f p - g p) = Rep3.sum f - Rep3.sum g := by
  unfold Rep3.sum
  ring

/-- The cross product of two distances. -/
def cross (d1 d2 : BitVec K × BitVec K) : BitVec K := d2.1 * d1.2 - d1.1 * d2.2

theorem sum_cross (q : Rep3Distance K × Rep3Distance K) :
    (Rep3.sum fun p => (q.2.view p).codeDot.mul (q.1.view p).maskDot - (q.1.view p).codeDot.mul (q.2.view p).maskDot) =
      cross q.1.value q.2.value := by
  rw [sum_sub]
  exact congrArg₂ (· - ·) (sum_mul q.2.1 q.1.2) (sum_mul q.1.1 q.2.2)

theorem getD_map_of_lt {α β : Type} {l : List α} {i : Nat} (h : i < l.length) (f : α → β) (d : β) :
    (l.map f).getD i d = f l[i] := by
  rw [List.getD_eq_getElem _ _ (by simpa using h), List.getElem_map]

theorem Shares.getD {v : Party → List (Share K)} {xs : List (Rep3 K)} (h : Shares v xs) (p : Party) (k : Nat) :
    (v p).getD k 0 = (xs.getD k 0).view p := by
  rw [h p, List.getD_eq_getElem?_getD, List.getElem?_map, List.getD_eq_getElem?_getD]
  cases xs[k]? <;> rfl

/-- The components that resharing leaves; every one has the sum of what the parties put in. -/
theorem IsReshare.exists_components {n : Nat} {expr : Party → Nat → BitVec K} {r : Party → List (Share K)}
    (h : IsReshare n (fun p => (List.range n).map (expr p)) r) : ∃ zs : List (Rep3 K), zs.length = n ∧ Shares r zs ∧
      ∀ i, i < n → (zs.getD i 0).sum = Rep3.sum fun p => expr p i := by
  obtain ⟨zs, hn, hr, hzs⟩ := h
  refine ⟨zs, hn, hr, fun i hi => ?_⟩
  have hlt : i < (List.range n).length := by rwa [List.length_range]
  have hget := congrArg (fun l => l.getD i 0) hzs
  simp only [getD_map_of_lt (hn.symm ▸ hi : i < zs.length), getD_map_of_lt hlt, List.getElem_range] at hget
  rw [List.getD_eq_getElem _ _ (hn.symm ▸ hi)]
  exact hget

/-- The sharing that resharing leaves, of the sums of what the parties put in. -/
theorem IsReshare.sharesOf {n : Nat} {expr : Party → Nat → BitVec K} {r : Party → List (Share K)}
    (h : IsReshare n (fun p => (List.range n).map (expr p)) r) {secrets : List (BitVec K)} (hn : secrets.length = n)
    (hsum : ∀ i, (hi : i < secrets.length) → (Rep3.sum fun p => expr p i) = secrets[i]) : SharesOf r secrets := by
  obtain ⟨zs, hzn, hr, hzs⟩ := h.exists_components
  refine ⟨zs, hr, List.ext_getElem (by simp [hn, hzn]) fun i hi hi' => ?_⟩
  have hlt : i < zs.length := by simpa using hi
  rw [List.getElem_map, ← hsum i hi', ← hzs i (hzn ▸ hlt), List.getD_eq_getElem _ _ hlt]

section Pairs

variable {R : Type} [Rng R]

theorem crossMul_succeeds {v : Party → List (DistancePair 32)}
    {ds : List ((BitVec 32 × BitVec 32) × (BitVec 32 × BitVec 32))} (h : PairsOf v ds) :
    Succeeds (fun p => (crossMul (v p) : Proc R _)) fun r => SharesOf r (ds.map fun d => cross d.1 d.2) := by
  have hlen := h.length
  obtain ⟨qs, hq, rfl⟩ := h
  simp only [crossMul, hlen]
  refine (reshareProducts_succeeds (t := .u32) _ _).mono fun r hr => ?_
  refine IsReshare.sharesOf (K := 32) hr (List.length_map _) fun i hi => ?_
  rw [List.length_map, List.length_map] at hi
  simp only [hq, getD_map_of_lt hi, List.getElem_map]
  exact sum_cross qs[i]

/-- The comparison of a pair of distances: the sign of the cross product. -/
theorem obliviousCrossCompareLifted_succeeds (sid : BitVec 32) {v : Party → List (DistancePair 32)}
    {ds : List ((BitVec 32 × BitVec 32) × (BitVec 32 × BitVec 32))} (h : PairsOf v ds) :
    Succeeds (fun p => (obliviousCrossCompareLifted ⟨p, sid⟩ (v p) : Proc R _)) fun r =>
      SharesOf r (ds.map fun d => indicator 32 (cross d.1 d.2).msb) := by
  simp only [obliviousCrossCompareLifted, obliviousCrossCompare, bind_assoc]
  refine (crossMul_succeeds h).bind fun diff hdiff => ?_
  exact msbInject_map (t := .u32) .u32 sid hdiff

end Pairs

/-! ## Selection -/

theorem tuples2_range (n : Nat) (f : Nat → Share K) :
    tuples2 ((List.range (n * 2)).map f) = (List.range n).map fun j => ⟨f (j * 2), f (j * 2 + 1)⟩ := by
  induction n generalizing f with
  | zero => rfl
  | succ n ih =>
    have hrange : List.range ((n + 1) * 2) = 0 :: 1 :: (List.range (n * 2)).map (· + 2) := by
      rw [show (n + 1) * 2 = n * 2 + 1 + 1 by omega, List.range_succ_eq_map, List.range_succ_eq_map, List.map_cons,
        List.map_map]
      rfl
    rw [hrange, List.range_succ_eq_map, List.map_cons, List.map_cons, tuples2, List.map_map, ih, List.map_cons,
      List.map_map]
    congr 1
    refine List.map_congr_left fun j _ => ?_
    simp only [Function.comp_apply, Nat.succ_eq_add_one, Nat.add_mul]

/-- The field of a distance. -/
def fieldOf (d : BitVec K × BitVec K) (f : Nat) : BitVec K := if f = 0 then d.1 else d.2

/-- One of two distances, by a bit. -/
def selectDistance (b : Bool) (d1 d2 : BitVec K × BitVec K) : BitVec K × BitVec K := if b then d1 else d2

theorem fieldOf_select (b : Bool) (d1 d2 : BitVec K × BitVec K) (f : Nat) :
    indicator K b * (fieldOf d1 f - fieldOf d2 f) + fieldOf d2 f = fieldOf (selectDistance b d1 d2) f := by
  cases b with
  | true =>
    show 1 * (fieldOf d1 f - fieldOf d2 f) + fieldOf d2 f = fieldOf d1 f
    ring
  | false =>
    show 0 * (fieldOf d1 f - fieldOf d2 f) + fieldOf d2 f = fieldOf d2 f
    ring

/-- The components of a field. -/
def Rep3Distance.field (z : Rep3Distance K) (f : Nat) : Rep3 K := if f = 0 then z.1 else z.2

theorem Rep3Distance.sum_field (z : Rep3Distance K) (f : Nat) : (z.field f).sum = fieldOf z.value f := by
  unfold Rep3Distance.field fieldOf
  split <;> rfl

theorem distanceField_eq {v : List (DistancePair K)} {p : Party} {qs : List (Rep3Distance K × Rep3Distance K)}
    (hq : v = qs.map fun q => (q.1.view p, q.2.view p)) {j : Nat} (hj : j < qs.length) (f : Nat) :
    distanceField v j f = ((qs[j].1.field f).view p, (qs[j].2.field f).view p) := by
  have hget : v[j]? = some (qs[j].1.view p, qs[j].2.view p) := by
    rw [hq, List.getElem?_map, List.getElem?_eq_getElem hj]
    rfl
  unfold distanceField Rep3Distance.field
  rw [hget]
  by_cases hf : f = 0 <;> simp [hf, Rep3Distance.view]

/-- The parties' parts of a field that a control bit selects. -/
theorem sum_muxExpr_field {fields : Nat} {controlBits : Party → List (Share K)} {bits : List (Rep3 K)}
    (hbits : Shares controlBits bits) {g : Party → Nat → Nat → Share K × Share K} {left right : Rep3 K} {j f : Nat}
    (hfield : ∀ p, g p j f = (left.view p, right.view p)) (hj : j < bits.length) (hf : f < fields) :
    (Rep3.sum fun p => muxExpr fields (controlBits p) (g p) (j * fields + f)) =
      bits[j].sum * (left.sum - right.sum) + right.sum := by
  have hpos : 0 < fields := Nat.zero_lt_of_lt hf
  have hdiv : (j * fields + f) / fields = j := by
    rw [Nat.add_comm, Nat.add_mul_div_right _ _ hpos, Nat.div_eq_of_lt hf, Nat.zero_add]
  have hmod : (j * fields + f) % fields = f := by
    rw [Nat.add_comm, Nat.add_mul_mod_self_right, Nat.mod_eq_of_lt hf]
  have hbit : ∀ p, (controlBits p).getD j 0 = bits[j].view p := by
    intro p
    rw [hbits p, getD_map_of_lt hj]
  have hexpr : ∀ p, muxExpr fields (controlBits p) (g p) (j * fields + f) =
      (bits[j].view p).mul (Rep3.view p fun r => left r - right r) + right p := by
    intro p
    unfold muxExpr
    rw [hdiv, hmod, hbit, hfield p]
    rfl
  simp only [hexpr]
  rw [sum_add, sum_mul, sum_sub]

/-- The parties' parts of a selected distance. -/
theorem sum_muxExpr {controlBits : Party → List (Share K)} {bits : List (Rep3 K)} (hbits : Shares controlBits bits)
    {v : Party → List (DistancePair K)} {qs : List (Rep3Distance K × Rep3Distance K)}
    (hq : ∀ p, v p = qs.map fun q => (q.1.view p, q.2.view p)) {j f : Nat} (hj : j < qs.length) (hjb : j < bits.length)
    (hf : f < 2) :
    (Rep3.sum fun p => muxExpr 2 (controlBits p) (distanceField (v p)) (j * 2 + f)) =
      bits[j].sum * (fieldOf qs[j].1.value f - fieldOf qs[j].2.value f) + fieldOf qs[j].2.value f := by
  rw [← Rep3Distance.sum_field, ← Rep3Distance.sum_field]
  exact sum_muxExpr_field (g := fun p => distanceField (v p)) hbits (fun p => distanceField_eq (hq p) hj f) hjb hf

variable {R : Type} [Rng R]

/-- Every pair is reduced to the distance its bit selects. -/
theorem conditionallySelectDistance_select {t : RingTy} {v : Party → List (DistancePair t.bits)}
    {ds : List ((BitVec t.bits × BitVec t.bits) × (BitVec t.bits × BitVec t.bits))} (h : PairsOf v ds)
    {controlBits : Party → List (Share t.bits)} {bs : List Bool} (hbs : bs.length = ds.length)
    (hbits : SharesOf controlBits (bs.map (indicator t.bits))) :
    Succeeds (fun p => (conditionallySelectDistance t (v p) (controlBits p) : Proc R _)) fun r =>
      DistancesOf r (List.zipWith (fun b d => selectDistance b d.1 d.2) bs ds) := by
  have hlen : ∀ p, (controlBits p).length = (v p).length := by
    intro p
    rw [hbits.length, h.length, List.length_map, hbs]
  obtain ⟨qs, hq, rfl⟩ := h
  obtain ⟨bits, hb, hsum⟩ := hbits
  rw [List.length_map] at hbs
  have hn : ∀ p, (v p).length = qs.length := by
    intro p
    rw [hq p, List.length_map]
  have hbn : bits.length = qs.length := by
    have hlengths := congrArg List.length hsum
    rw [List.length_map, List.length_map] at hlengths
    exact hlengths.trans hbs
  simp only [conditionallySelectDistance, hlen, ne_eq, not_true_eq_false, if_false, hn]
  refine (reshareMux_succeeds (by decide) (fun p => (hlen p).trans (hn p) ▸ le_refl _) _).bind fun products hr => ?_
  obtain ⟨zs, hzn, hz, hzs⟩ := hr.exists_components
  have hfield : ∀ j f, (hj : j < qs.length) → f < 2 → (zs.getD (j * 2 + f) 0).sum =
      fieldOf (selectDistance (bs.getD j false) qs[j].1.value qs[j].2.value) f := by
    intro j f hj hf
    have hjb : j < bs.length := by omega
    have hbit : bits[j].sum = indicator t.bits (bs.getD j false) := by
      have hget := congrArg (fun l => l.getD j 0) hsum
      rw [List.getD_eq_getElem _ _ hjb]
      simpa [hbn, hj, hjb] using hget
    rw [hzs _ (by omega), sum_muxExpr hb hq hj (hbn ▸ hj) hf, hbit, fieldOf_select]
  refine Succeeds.pure ⟨(List.range qs.length).map fun j => (zs.getD (j * 2) 0, zs.getD (j * 2 + 1) 0), ?_, ?_⟩
  · intro p
    have hall : zs = (List.range (qs.length * 2)).map fun i => zs.getD i 0 := by
      refine List.ext_getElem (by simp [hzn]) fun i hi hi' => ?_
      rw [List.getElem_map, List.getElem_range, List.getD_eq_getElem _ _ hi]
    show tuples2 (products p) = _
    rw [hz p, hall, List.map_map, tuples2_range, List.map_map]
    simp only [← hall]
    rfl
  · refine List.ext_getElem (by simp [hbs]) fun j hj hj' => ?_
    have hjq : j < qs.length := by simpa using hj
    simp only [List.getElem_map, List.getElem_range, List.getElem_zipWith]
    rw [← List.getD_eq_getElem bs false]
    exact Prod.ext (hfield j 0 hjq (by decide)) (hfield j 1 hjq (by decide))

/-- The same with bits that depend on the pairs. -/
theorem conditionallySelectDistance_succeeds {t : RingTy} {v : Party → List (DistancePair t.bits)}
    {ds : List ((BitVec t.bits × BitVec t.bits) × (BitVec t.bits × BitVec t.bits))} (h : PairsOf v ds)
    {controlBits : Party → List (Share t.bits)}
    {b : (BitVec t.bits × BitVec t.bits) × (BitVec t.bits × BitVec t.bits) → Bool}
    (hbits : SharesOf controlBits (ds.map fun d => indicator t.bits (b d))) :
    Succeeds (fun p => (conditionallySelectDistance t (v p) (controlBits p) : Proc R _)) fun r =>
      DistancesOf r (ds.map fun d => selectDistance (b d) d.1 d.2) := by
  have hmap : SharesOf controlBits ((ds.map b).map (indicator t.bits)) := by
    rw [List.map_map]
    exact hbits
  refine (conditionallySelectDistance_select h (List.length_map b) hmap).mono fun r hr => ?_
  rw [List.zipWith_map_left, List.zipWith_self] at hr
  exact hr

/-- A pair is reduced to the first distance when the cross product is negative. -/
def reducePair (d1 d2 : BitVec K × BitVec K) : BitVec K × BitVec K := selectDistance (cross d1 d2).msb d1 d2

theorem minOfPairBatch_succeeds (sid : BitVec 32) {v : Party → List (DistancePair 32)}
    {ds : List ((BitVec 32 × BitVec 32) × (BitVec 32 × BitVec 32))} (h : PairsOf v ds) :
    Succeeds (fun p => (minOfPairBatch ⟨p, sid⟩ (v p) : Proc R _)) fun r =>
      DistancesOf r (ds.map fun d => reducePair d.1 d.2) :=
  (obliviousCrossCompareLifted_succeeds sid h).bind fun _ hbits =>
    conditionallySelectDistance_succeeds (t := .u32) h hbits

/-! ## Distances as numbers -/

/-- A code and a mask in the ring of 32 bits. -/
def toRing (d : Int × Int) : BitVec 32 × BitVec 32 := (BitVec.ofInt 32 d.1, BitVec.ofInt 32 d.2)

/-- A signed code of 16 bits, and a positive mask below `2^15`. -/
structure DistanceFits (d : Int × Int) : Prop where
  code_ge : -2 ^ 15 ≤ d.1
  code_lt : d.1 < 2 ^ 15
  mask_pos : 0 < d.2
  mask_lt : d.2 < 2 ^ 15

/-- The distance `m` is not larger than `e`: its fraction of equal bits is not smaller. -/
def Closer (m e : Int × Int) : Prop := e.1 * m.2 ≤ m.1 * e.2

instance (m e : Int × Int) : Decidable (Closer m e) := inferInstanceAs (Decidable (_ ≤ _))

/-- The smaller one of two distances; the second one when they are equal. -/
def minDistance (d1 d2 : Int × Int) : Int × Int := if d2.1 * d1.2 < d1.1 * d2.2 then d1 else d2

theorem toInt_ofInt_of_bounds (n : Nat) {z : Int} (hlow : -2 ^ n ≤ z) (hhigh : z < 2 ^ n) :
    (BitVec.ofInt (n + 1) z).toInt = z := by
  have hpow : ((2 ^ (n + 1) : Nat) : Int) = 2 ^ n * 2 := by push_cast; ring
  rw [BitVec.toInt_ofInt, Int.bmod_eq_of_le_mul_two (by omega) (by omega)]

theorem msb_ofInt_of_bounds (n : Nat) {z : Int} (hlow : -2 ^ n ≤ z) (hhigh : z < 2 ^ n) :
    (BitVec.ofInt (n + 1) z).msb = decide (z < 0) := by
  rw [BitVec.msb_eq_toInt, toInt_ofInt_of_bounds n hlow hhigh]

theorem toInt_ofInt {z : Int} (hlow : -2 ^ 31 ≤ z) (hhigh : z < 2 ^ 31) : (BitVec.ofInt 32 z).toInt = z :=
  toInt_ofInt_of_bounds 31 hlow hhigh

theorem msb_ofInt {z : Int} (hlow : -2 ^ 31 ≤ z) (hhigh : z < 2 ^ 31) :
    (BitVec.ofInt 32 z).msb = decide (z < 0) := msb_ofInt_of_bounds 31 hlow hhigh

theorem ofInt_sub (K : Nat) (x y : Int) : BitVec.ofInt K (x - y) = BitVec.ofInt K x - BitVec.ofInt K y := by
  rw [Int.sub_eq_add_neg, BitVec.ofInt_add, BitVec.ofInt_neg, BitVec.sub_eq_add_neg]

theorem cross_toRing (d1 d2 : Int × Int) :
    cross (toRing d1) (toRing d2) = BitVec.ofInt 32 (d2.1 * d1.2 - d1.1 * d2.2) := by
  rw [ofInt_sub, BitVec.ofInt_mul, BitVec.ofInt_mul]
  rfl

theorem DistanceFits.mul_bounds {d e : Int × Int} (hd : DistanceFits d) (he : DistanceFits e) :
    -(2 ^ 15 * (2 ^ 15 - 1)) ≤ d.1 * e.2 ∧ d.1 * e.2 ≤ (2 ^ 15 - 1) * (2 ^ 15 - 1) := by
  obtain ⟨hge, hlt, -, -⟩ := hd
  obtain ⟨-, -, hpos, hmask⟩ := he
  constructor <;> nlinarith

/-- The products do not overflow, so the reduction gives the smaller distance. -/
theorem reducePair_toRing {d1 d2 : Int × Int} (h1 : DistanceFits d1) (h2 : DistanceFits d2) :
    reducePair (toRing d1) (toRing d2) = toRing (minDistance d1 d2) := by
  obtain ⟨hlow, hhigh⟩ := h2.mul_bounds h1
  obtain ⟨hlow', hhigh'⟩ := h1.mul_bounds h2
  unfold reducePair minDistance selectDistance
  rw [cross_toRing, msb_ofInt (by omega) (by omega)]
  by_cases h : d2.1 * d1.2 < d1.1 * d2.2
  · simp [h]
  · simp [h]

theorem Closer.refl (m : Int × Int) : Closer m m := le_refl _

theorem Closer.trans {m e f : Int × Int} (hm : DistanceFits m) (he : DistanceFits e) (hf : DistanceFits f)
    (hme : Closer m e) (hef : Closer e f) : Closer m f := by
  have hpos := he.mask_pos
  have h1 : e.1 * m.2 * f.2 ≤ m.1 * e.2 * f.2 := Int.mul_le_mul_of_nonneg_right hme hf.mask_pos.le
  have h2 : f.1 * e.2 * m.2 ≤ e.1 * f.2 * m.2 := Int.mul_le_mul_of_nonneg_right hef hm.mask_pos.le
  unfold Closer
  refine le_of_mul_le_mul_right ?_ hpos
  calc f.1 * m.2 * e.2 = f.1 * e.2 * m.2 := by ring
    _ ≤ e.1 * f.2 * m.2 := h2
    _ = e.1 * m.2 * f.2 := by ring
    _ ≤ m.1 * e.2 * f.2 := h1
    _ = m.1 * f.2 * e.2 := by ring

theorem minDistance_mem (d1 d2 : Int × Int) : minDistance d1 d2 = d1 ∨ minDistance d1 d2 = d2 := by
  unfold minDistance
  split
  · exact .inl rfl
  · exact .inr rfl

theorem minDistance_closer (d1 d2 : Int × Int) :
    Closer (minDistance d1 d2) d1 ∧ Closer (minDistance d1 d2) d2 := by
  unfold minDistance
  by_cases h : d2.1 * d1.2 < d1.1 * d2.2
  · rw [if_pos h]
    exact ⟨Closer.refl d1, h.le⟩
  · rw [if_neg h]
    refine ⟨?_, Closer.refl d2⟩
    exact not_lt.mp h

/-! ## The reduction of groups -/

theorem le_foldl_max (l : List Nat) (n : Nat) : n ≤ l.foldl max n ∧ ∀ x ∈ l, x ≤ l.foldl max n := by
  induction l generalizing n with
  | nil => exact ⟨le_refl n, by simp⟩
  | cons x l ih =>
    obtain ⟨hmax, hl⟩ := ih (max n x)
    refine ⟨(le_max_left n x).trans hmax, ?_⟩
    rw [List.forall_mem_cons]
    exact ⟨(le_max_right n x).trans hmax, hl⟩

section Groups

variable {enc : Int × Int → BitVec K × BitVec K}

/-- The parties hold shares of groups of distances, which are numbers `enc` takes to the ring. -/
def GroupsIn (enc : Int × Int → BitVec K × BitVec K) (v : Party → List (List (DistanceShare K)))
    (groups : List (List (Int × Int))) : Prop :=
  ∃ zss : List (List (Rep3Distance K)), (∀ p, v p = zss.map (List.map (Rep3Distance.view p))) ∧
    zss.map (List.map Rep3Distance.value) = groups.map (List.map enc)

theorem GroupsIn.map_length {v : Party → List (List (DistanceShare K))} {groups : List (List (Int × Int))}
    (h : GroupsIn enc v groups) (p : Party) : (v p).map List.length = groups.map List.length := by
  obtain ⟨zss, hz, hvalues⟩ := h
  have hlengths := congrArg (List.map List.length) hvalues
  rw [hz p]
  simpa only [List.map_map, Function.comp_def, List.length_map] using hlengths

theorem groupsIn_cons {zs : List (Rep3Distance K)} {zss : List (List (Rep3Distance K))} {group : List (Int × Int)}
    {groups : List (List (Int × Int))}
    (h : (zs :: zss).map (List.map Rep3Distance.value) = (group :: groups).map (List.map enc)) :
    zs.map Rep3Distance.value = group.map enc ∧
      zss.map (List.map Rep3Distance.value) = groups.map (List.map enc) := by
  rw [List.map_cons, List.map_cons] at h
  exact List.cons.inj h

theorem firstDistances_eq {zss : List (List (Rep3Distance K))} {groups : List (List (Int × Int))}
    (h : zss.map (List.map Rep3Distance.value) = groups.map (List.map enc)) (hne : ∀ group ∈ groups, group ≠ []) :
    ∃ zs : List (Rep3Distance K),
      (∀ p, firstDistances (zss.map (List.map (Rep3Distance.view p))) = .ok (zs.map (Rep3Distance.view p))) ∧
      zs.map Rep3Distance.value = groups.map fun group => enc (Slot.first group).best := by
  induction zss generalizing groups with
  | nil =>
    cases groups with
    | nil => exact ⟨[], fun p => rfl, rfl⟩
    | cons group groups => cases h
  | cons zs zss ih =>
    cases groups with
    | nil => cases h
    | cons group groups =>
      obtain ⟨hgroup, hgroups⟩ := groupsIn_cons h
      obtain ⟨firsts, hfirsts, hvalues⟩ := ih hgroups fun g hg => hne g (List.mem_cons_of_mem _ hg)
      cases zs with
      | nil =>
        have hnil : group = [] := List.map_eq_nil_iff.mp hgroup.symm
        exact absurd hnil (hne group List.mem_cons_self)
      | cons z zs =>
        cases group with
        | nil => cases hgroup
        | cons d group =>
          refine ⟨z :: firsts, fun p => ?_, ?_⟩
          · show (firstDistances (zss.map (List.map (Rep3Distance.view p))) >>= _) = _
            rw [hfirsts p]
            rfl
          · rw [List.map_cons, hvalues, (List.cons.inj hgroup).1]
            rfl

/-- The pairs of a round. -/
theorem distancesToReduce_eq {zss : List (List (Rep3Distance K))} {slots : List (Slot (Int × Int))}
    {zs : List (Rep3Distance K)}
    (hgroups : zss.map (List.map Rep3Distance.value) = (slots.map Slot.group).map (List.map enc))
    (hbest : zs.map Rep3Distance.value = slots.map fun t => enc t.best)
    (hsize : ∀ t ∈ slots, t.size < t.group.length) :
    ∃ qs : List (Rep3Distance K × Rep3Distance K),
      (∀ p, distancesToReduce (zss.map (List.map (Rep3Distance.view p))) (slots.map Slot.size)
        (zs.map (Rep3Distance.view p)) = .ok (qs.map fun q => (q.1.view p, q.2.view p))) ∧
      qs.map (fun q => (q.1.value, q.2.value)) =
        slots.map fun t => (enc (t.group.getD t.size t.best), enc t.best) := by
  induction slots generalizing zss zs with
  | nil =>
    cases zs with
    | nil =>
      cases zss with
      | nil => exact ⟨[], fun p => rfl, rfl⟩
      | cons z zss => cases hgroups
    | cons z zs => cases hbest
  | cons t slots ih =>
    cases zs with
    | nil => cases hbest
    | cons z zs =>
      cases zss with
      | nil => cases hgroups
      | cons group zss =>
        obtain ⟨hgroup, hgroups⟩ := groupsIn_cons hgroups
        obtain ⟨hz, hbest⟩ := List.cons.inj hbest
        obtain ⟨qs, hqs, hvalues⟩ := ih hgroups hbest fun t' ht' => hsize t' (List.mem_cons_of_mem _ ht')
        have hlt := hsize t List.mem_cons_self
        have hlen : group.length = t.group.length := by
          have hlengths := congrArg List.length hgroup
          simpa using hlengths
        rw [← hlen] at hlt
        have hvalue : group[t.size].value = enc (t.group.getD t.size t.best) := by
          have hget := congrArg (fun l => l[t.size]?) hgroup
          have hlt' := hsize t List.mem_cons_self
          simpa [hlt, hlt'] using hget
        refine ⟨(group[t.size], z) :: qs, fun p => ?_, ?_⟩
        · have hget : (group.map (Rep3Distance.view p))[t.size]? = some (group[t.size].view p) := by
            rw [List.getElem?_map, List.getElem?_eq_getElem hlt]
            rfl
          simp only [List.map_cons, distancesToReduce, hget, hqs p]
          rfl
        · rw [List.map_cons, List.map_cons, hvalues, hvalue, hz]

variable {fits : Int × Int → Prop} {le : Int × Int → Int × Int → Prop} {select : Int × Int → Int × Int → Int × Int}
  {reduce : BitVec K × BitVec K → BitVec K × BitVec K → BitVec K × BitVec K}
  {minOfPair : Party → List (DistancePair K) → Proc R (List (DistanceShare K))}
  (hmin : ∀ {v ds}, PairsOf v ds →
    Succeeds (fun p => minOfPair p (v p)) fun r => DistancesOf r (ds.map fun d => reduce d.1 d.2))
  (hs : Selects fits le select) (hreduce : ∀ d e, fits d → fits e → reduce (enc d) (enc e) = enc (select d e))

include hmin hs hreduce

omit [Rng R] in
/-- A round of the loop. -/
theorem reduceRound_succeeds {v : Party → List (List (DistanceShare K))} {slots : List (Slot (Int × Int))}
    (hv : GroupsIn enc v (slots.map Slot.group)) (hinv : ∀ t ∈ slots, t.Inv fits select)
    {w : Party → List (DistanceShare K)} (hw : DistancesOf w (slots.map fun t => enc t.best)) :
    Succeeds (fun p => Proc.lift (distancesToReduce (v p) (slots.map Slot.size) (w p)) >>= minOfPair p)
      fun r => DistancesOf r (slots.map fun t => enc (t.next select).best) := by
  obtain ⟨zss, hv, hgroups⟩ := hv
  obtain ⟨zs, hw, hbest⟩ := hw
  obtain ⟨qs, hqs, hpairs⟩ := distancesToReduce_eq hgroups hbest fun t ht => (hinv t ht).size_lt
  simp only [hv, hw]
  refine Succeeds.lift_bind hqs ((hmin ⟨qs, fun p => rfl, hpairs⟩).mono fun r hr => ?_)
  rw [List.map_map] at hr
  have hreduced : ∀ t ∈ slots,
      reduce (enc (t.group.getD t.size t.best)) (enc t.best) = enc (t.next select).best := by
    intro t ht
    have h := hinv t ht
    exact hreduce _ _ (h.fits _ h.new_mem) (h.fits _ (h.best_mem hs))
  have hmap := List.map_congr_left hreduced
  exact hmap ▸ hr

omit [Rng R] in
/-- The loop, by induction on the fuel: every group is reduced. -/
theorem reduceLoop_succeeds {v : Party → List (List (DistanceShare K))} (fuel : Nat)
    {slots : List (Slot (Int × Int))} (hv : GroupsIn enc v (slots.map Slot.group))
    (hinv : ∀ t ∈ slots, t.Inv fits select) (hfuel : ∀ t ∈ slots, t.size < fuel) (hpos : 0 < fuel)
    {w : Party → List (DistanceShare K)} (hw : DistancesOf w (slots.map fun t => enc t.best)) :
    Succeeds (fun p => reduceLoop (minOfPair p) (v p) fuel (slots.map Slot.size) (w p)) fun r =>
      DistancesOf r ((slots.map Slot.group).map fun group => enc (reduced select group)) := by
  induction fuel generalizing slots w with
  | zero => exact absurd hpos (lt_irrefl 0)
  | succ fuel ih =>
    unfold reduceLoop
    by_cases hdone : (slots.map Slot.size).all (· == 0) = true
    · simp only [hdone, if_true]
      have hsize : ∀ t ∈ slots, t.size = 0 := by
        simpa using hdone
      have hbest : (slots.map Slot.group).map (fun group => enc (reduced select group)) =
          slots.map fun t => enc t.best := by
        rw [List.map_map]
        refine List.map_congr_left fun t ht => ?_
        rw [(hinv t ht).best_eq_reduced (hsize t ht)]
        rfl
      rw [hbest]
      exact Succeeds.pure hw
    · simp only [hdone]
      have hmore : 0 < fuel := by
        obtain ⟨t, ht, hne⟩ : ∃ t ∈ slots, t.size ≠ 0 := by simpa using hdone
        have := hfuel t ht
        omega
      have hsizes : (slots.map Slot.size).map (· - 1) = (slots.map (Slot.next select)).map Slot.size := by
        rw [List.map_map, List.map_map]
        rfl
      have hgroups : (slots.map (Slot.next select)).map Slot.group = slots.map Slot.group := by
        rw [List.map_map]
        rfl
      refine Succeeds.of_assoc ((reduceRound_succeeds hmin hs hreduce hv hinv hw).bind fun reduced hreduced => ?_)
      have hrest := @ih (slots.map (Slot.next select)) (hgroups ▸ hv) ?_ ?_ hmore reduced ?_
      · rw [hgroups] at hrest
        simp only [hsizes]
        exact hrest
      · rw [List.forall_mem_map]
        exact fun t ht => (hinv t ht).next hs
      · rw [List.forall_mem_map]
        intro t ht
        have hlt := hfuel t ht
        show t.size - 1 < fuel
        omega
      · rw [List.map_map]
        exact hreduced

omit [Rng R] in
/-- Groups that are not empty are reduced, each on its own, whatever the sizes of the other ones are. -/
theorem reduceToMinWith_succeeds {v : Party → List (List (DistanceShare K))} {groups : List (List (Int × Int))}
    (hv : GroupsIn enc v groups) (hne : ∀ group ∈ groups, group ≠ []) (hfits : ∀ group ∈ groups, ∀ d ∈ group, fits d) :
    Succeeds (fun p => reduceToMinWith (minOfPair p) (v p)) fun r =>
      DistancesOf r (groups.map fun group => enc (reduced select group)) := by
  have hslots : (groups.map Slot.first).map Slot.group = groups := by
    rw [List.map_map]
    exact List.map_id groups
  have hbest : (groups.map Slot.first).map (fun t => enc t.best) = groups.map fun g => enc (Slot.first g).best := by
    rw [List.map_map]
    rfl
  have hsizes : ∀ p, (v p).map (fun group => group.length - 1) = (groups.map Slot.first).map Slot.size := by
    intro p
    have hlengths := congrArg (List.map (· - 1)) (hv.map_length p)
    rw [List.map_map, List.map_map] at hlengths
    rw [List.map_map]
    exact hlengths
  obtain ⟨zss, hz, hvalues⟩ := id hv
  obtain ⟨zs, hfirst, hfirsts⟩ := firstDistances_eq hvalues hne
  have hgroups : GroupsIn enc v ((groups.map Slot.first).map Slot.group) := hslots.symm ▸ hv
  have hloop := reduceLoop_succeeds hmin hs hreduce (((groups.map Slot.first).map Slot.size).foldl max 0 + 1) hgroups
    ?_ ?_ (Nat.succ_pos _) (w := fun p => zs.map (Rep3Distance.view p)) ⟨zs, fun p => rfl, hfirsts.trans hbest.symm⟩
  · rw [hslots] at hloop
    simp only [reduceToMinWith]
    refine Succeeds.lift_bind (a := fun p => zs.map (Rep3Distance.view p)) (fun p => (hz p).symm ▸ hfirst p) ?_
    simp only [hsizes]
    exact hloop
  · rw [List.forall_mem_map]
    exact fun group hg => Slot.Inv.first (hne group hg) (hfits group hg)
  · intro t ht
    exact Nat.lt_succ_of_le ((le_foldl_max _ 0).2 _ (List.mem_map_of_mem ht))

end Groups

/-- `m` is a smallest distance of the group. -/
def IsMinDistance (group : List (Int × Int)) (m : Int × Int) : Prop := m ∈ group ∧ ∀ e ∈ group, Closer m e

instance (group : List (Int × Int)) (m : Int × Int) : Decidable (IsMinDistance group m) :=
  inferInstanceAs (Decidable (_ ∧ _))

/-- The parties hold shares of groups of distances. -/
def GroupsOf (v : Party → List (List (DistanceShare 32))) (groups : List (List (Int × Int))) : Prop :=
  ∃ zss : List (List (Rep3Distance 32)), (∀ p, v p = zss.map (List.map (Rep3Distance.view p))) ∧
    zss.map (List.map Rep3Distance.value) = groups.map (List.map toRing)

theorem selects_minDistance : Selects DistanceFits Closer minDistance where
  mem := minDistance_mem
  le_left d e _ _ := (minDistance_closer d e).1
  le_right d e _ _ := (minDistance_closer d e).2
  refl d _ := Closer.refl d
  trans _ _ _ := Closer.trans
  stays _ _ _ _ h := if_neg (not_lt.mpr h)

theorem isMinDistance_reduced {group : List (Int × Int)} (hne : group ≠ []) (hfits : ∀ d ∈ group, DistanceFits d) :
    IsMinDistance group (reduced minDistance group) :=
  ⟨reduced_mem selects_minDistance hne, reduced_le selects_minDistance hfits⟩

/-- Every group is reduced on its own. -/
theorem reduceToMinDistanceBatch_reduced (sid : BitVec 32) {v : Party → List (List (DistanceShare 32))}
    {groups : List (List (Int × Int))} (hv : GroupsOf v groups) (hne : ∀ group ∈ groups, group ≠ [])
    (hfits : ∀ group ∈ groups, ∀ d ∈ group, DistanceFits d) :
    Succeeds (fun p => (reduceToMinDistanceBatch ⟨p, sid⟩ (v p) : Proc R _)) fun r =>
      DistancesOf r (groups.map fun group => toRing (reduced minDistance group)) :=
  reduceToMinWith_succeeds (fun h => minOfPairBatch_succeeds sid h) selects_minDistance
    (fun _ _ => reducePair_toRing) hv hne hfits

/-- Every group is reduced to a smallest one of its distances. -/
theorem reduceToMinDistanceBatch_succeeds (sid : BitVec 32) {v : Party → List (List (DistanceShare 32))}
    {groups : List (List (Int × Int))} (hv : GroupsOf v groups) (hne : ∀ group ∈ groups, group ≠ [])
    (hfits : ∀ group ∈ groups, ∀ d ∈ group, DistanceFits d) :
    Succeeds (fun p => (reduceToMinDistanceBatch ⟨p, sid⟩ (v p) : Proc R _)) fun r =>
      ∃ ms, DistancesOf r (ms.map toRing) ∧ List.Forall₂ IsMinDistance groups ms := by
  refine (reduceToMinDistanceBatch_reduced sid hv hne hfits).mono fun r hr => ?_
  refine ⟨groups.map (reduced minDistance), ?_, ?_⟩
  · rw [List.map_map]
    exact hr
  · rw [List.forall₂_map_right_iff, List.forall₂_same]
    exact fun group hg => isMinDistance_reduced (hne group hg) (hfits group hg)

/-! ## Thresholds -/

/-- The differences of the values with the thresholds. -/
theorem SharesOf.thresholdDiffs {v : Party → List (DistanceShare 32)} {ds : List (BitVec 32 × BitVec 32)}
    (h : DistancesOf v ds) (thresholdATerms : List (BitVec 32)) :
    SharesOf (fun p => Protocol.thresholdDiffs thresholdATerms (v p))
      (thresholdATerms.flatMap fun a => ds.map fun d => d.2 * a - d.1 * thresholdB) := by
  obtain ⟨zs, hz, rfl⟩ := h
  refine ⟨thresholdATerms.flatMap fun a => zs.map fun z p => z.2 p * a - z.1 p * thresholdB, fun p => ?_, ?_⟩
  · show Protocol.thresholdDiffs _ (v p) = _
    unfold Protocol.thresholdDiffs
    rw [hz p, List.map_flatMap]
    simp only [List.map_map]
    rfl
  · rw [List.map_flatMap]
    simp only [List.map_map]
    refine List.flatMap_congr fun a _ => List.map_congr_left fun z _ => ?_
    show z.2 0 * a - z.1 0 * thresholdB + (z.2 1 * a - z.1 1 * thresholdB) + (z.2 2 * a - z.1 2 * thresholdB) =
      (z.2 0 + z.2 1 + z.2 2) * a - (z.1 0 + z.1 1 + z.1 2) * thresholdB
    ring

/-- A distance passes a threshold: its fraction of equal bits is larger than `a / 2^16`. -/
def Passes (a : BitVec 32) (d : Int × Int) : Prop := d.2 * a.toNat < d.1 * 2 ^ 16

instance (a : BitVec 32) (d : Int × Int) : Decidable (Passes a d) := inferInstanceAs (Decidable (_ < _))

/-- A code of at most the mask, and a mask for which the comparison with a threshold does not overflow. -/
structure DistanceInRange (d : Int × Int) : Prop where
  mask_pos : 1 ≤ d.2
  mask_le : d.2 ≤ 16383
  code_le : |d.1| ≤ d.2

theorem DistanceInRange.fits {d : Int × Int} (h : DistanceInRange d) : DistanceFits d := by
  obtain ⟨hpos, hmask, hcode⟩ := h
  rw [abs_le] at hcode
  exact ⟨by omega, by omega, by omega, by omega⟩

theorem thresholdDiff_eq (a : BitVec 32) (d : Int × Int) :
    (toRing d).2 * a - (toRing d).1 * thresholdB = BitVec.ofInt 32 (d.2 * a.toNat - d.1 * 2 ^ 16) := by
  have hofNat : a = BitVec.ofInt 32 a.toNat := by simp
  rw [ofInt_sub, BitVec.ofInt_mul, BitVec.ofInt_mul, ← hofNat]
  rfl

theorem thresholdDiff_bounds {a : BitVec 32} (ha : a.toNat ≤ 2 ^ 16) {d : Int × Int} (h : DistanceInRange d) :
    -2 ^ 31 ≤ d.2 * a.toNat - d.1 * 2 ^ 16 ∧ d.2 * a.toNat - d.1 * 2 ^ 16 < 2 ^ 31 := by
  obtain ⟨hpos, hmask, hcode⟩ := h
  rw [abs_le] at hcode
  have hlow : 0 ≤ d.2 * a.toNat := by positivity
  have hhigh : d.2 * a.toNat ≤ 16383 * 2 ^ 16 := by
    have hle : (a.toNat : Int) ≤ 2 ^ 16 := by exact_mod_cast ha
    exact Int.mul_le_mul hmask hle (by positivity) (by norm_num)
  constructor <;> omega

theorem msb_thresholdDiff {a : BitVec 32} (ha : a.toNat ≤ 2 ^ 16) {d : Int × Int} (h : DistanceInRange d) :
    ((toRing d).2 * a - (toRing d).1 * thresholdB).msb = decide (Passes a d) := by
  obtain ⟨hlow, hhigh⟩ := thresholdDiff_bounds ha h
  rw [thresholdDiff_eq, msb_ofInt hlow hhigh]
  unfold Passes
  exact decide_eq_decide.mpr (by omega)

/-- For one threshold after the other, every distance is compared with it. -/
theorem compareAgainstThresholdsBatched_succeeds (sid : BitVec 32) {v : Party → List (DistanceShare 32)}
    {ds : List (Int × Int)} (hv : DistancesOf v (ds.map toRing)) (hds : ∀ d ∈ ds, DistanceInRange d)
    {thresholdATerms : List (BitVec 32)} (hterms : ∀ a ∈ thresholdATerms, a.toNat ≤ 2 ^ 16) :
    Succeeds (fun p => (compareAgainstThresholdsBatched ⟨p, sid⟩ thresholdATerms (v p) : Proc R _)) fun r =>
      SharesOf r (thresholdATerms.flatMap fun a => ds.map fun d => indicator 32 (Passes a d)) := by
  unfold compareAgainstThresholdsBatched
  refine (msbInject_sharesOf (t := .u32) .u32 sid (SharesOf.thresholdDiffs hv thresholdATerms)).mono fun r hr => ?_
  have hbits : thresholdATerms.flatMap (fun a => ds.map fun d => indicator 32 (decide (Passes a d))) =
      (thresholdATerms.flatMap fun a => (ds.map toRing).map fun d => d.2 * a - d.1 * thresholdB).map fun x =>
        indicator 32 x.msb := by
    rw [List.map_flatMap]
    refine List.flatMap_congr fun a ha => ?_
    rw [List.map_map, List.map_map]
    refine List.map_congr_left fun d hd => ?_
    exact congrArg (indicator 32) (msb_thresholdDiff (hterms a ha) (hds d hd)).symm
  rw [hbits]
  exact hr

end AmpcCommon.Protocol
