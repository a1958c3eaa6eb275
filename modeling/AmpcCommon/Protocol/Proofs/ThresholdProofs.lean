import AmpcCommon.Protocol.Threshold
import AmpcCommon.Protocol.Proofs.LiftProofs
import AmpcCommon.Protocol.Proofs.OpeningProofs

/-!
# The fixed threshold, proofs

The fused circuit runs two adders side by side: one for the masks, of which it needs the two carries above the
16 bits, and one for the expressions modulo `2^18`. The carries of the mask are added to the bits 16 and 17 of
the expression, which leaves the sign bit of `4 * code - mask` (`circuitSign_eq`).
-/

namespace AmpcCommon.Protocol

/-! ## The layers -/

section Layers

variable {R : Type} [Rng R] {C : Prop} {w : Nat}
  {maskS maskC expressionS expressionC : Party → List (List (Share 64))}
  {S D T E : Nat → List Bool}

/-- Gates on packed words. -/
theorem packedGates_carries {m : Nat} {a b : Party → List (List (Share 64))} {F G : Nat → List Bool}
    (ha : CarriesPlanes C m w a F) (hb : CarriesPlanes C m w b G) :
    Succeeds (fun p => (andManyGrouped .u64 ((a p).zip (b p)) : Proc R (List (List (Share 64))))) fun r =>
      CarriesPlanes C m w r fun i => List.zipWith and (F i) (G i) :=
  andManyGrouped_carries (t := .u64) ha hb

/-- The carry after `n` layers from `offset` on. -/
def layers (s c : List Bool) (offset n : Nat) (k : Bool) : Bool :=
  BitSum.ripple ((s.drop (offset + 2)).take n) ((c.drop (offset + 1)).take n) k

theorem layers_succ {s c : List Bool} {offset n : Nat} (hs : offset + 2 < s.length) (hc : offset + 1 < c.length)
    (k : Bool) : layers s c offset (n + 1) k = layers s c (offset + 1) n
      (k ^^ ((s.getD (offset + 2) false ^^ k) && (c.getD (offset + 1) false ^^ k))) := by
  unfold layers
  rw [List.drop_eq_getElem_cons hs, List.drop_eq_getElem_cons hc, List.getD_eq_getElem _ _ hs,
    List.getD_eq_getElem _ _ hc]
  rfl

theorem sharedLayer_carries {m n m' n' offset : Nat} {maskCarry expressionCarry : Party → List (Share 64)}
    {f g : Nat → Bool} (hS : CarriesPlanes C m w maskS S) (hD : CarriesPlanes C n w maskC D)
    (hT : CarriesPlanes C m' w expressionS T) (hE : CarriesPlanes C n' w expressionC E)
    (hf : Carries C w maskCarry f) (hg : Carries C w expressionCarry g) (hm : offset + 2 < m)
    (hn : offset + 1 < n) (hm' : offset + 2 < m') (hn' : offset + 1 < n') :
    Succeeds (fun p => (sharedLayer (maskS p) (maskC p) (expressionS p) (expressionC p) offset (maskCarry p)
      (expressionCarry p) : Proc R _)) fun r =>
      Carries C w (fun p => (r p).1) (fun i =>
        f i ^^ (((S i).getD (offset + 2) false ^^ f i) && ((D i).getD (offset + 1) false ^^ f i))) ∧
      Carries C w (fun p => (r p).2) fun i =>
        g i ^^ (((T i).getD (offset + 2) false ^^ g i) && ((E i).getD (offset + 1) false ^^ g i)) := by
  have hs := fun p => getElem?_eq_getD (hS.1 p) hm
  have hd := fun p => getElem?_eq_getD (hD.1 p) hn
  have ht := fun p => getElem?_eq_getD (hT.1 p) hm'
  have he := fun p => getElem?_eq_getD (hE.1 p) hn'
  simp only [sharedLayer, hs, hd, ht, he]
  have hsx := (hS.getD hm).xorAssign hf
  have hdx := (hD.getD hn).xorAssign hf
  have htx := (hT.getD hm').xorAssign hg
  have hex := (hE.getD hn').xorAssign hg
  refine (packedGates_carries (R := R) (.cons hsx (.cons htx .nil)) (.cons hdx (.cons hex .nil))).bind
    fun (next : Party → List (List (Share 64))) hnext => ?_
  obtain ⟨x, next, hx, hcx, hnext⟩ := hnext.uncons
  obtain ⟨y, rest, hy, hcy, -⟩ := hnext.uncons
  simp only [hx, hy]
  exact Succeeds.pure ⟨hf.xorAssign hcx, hg.xorAssign hcy⟩

theorem sharedLayers_carries {m n m' n' : Nat} (hS : CarriesPlanes C m w maskS S) (hD : CarriesPlanes C n w maskC D)
    (hT : CarriesPlanes C m' w expressionS T) (hE : CarriesPlanes C n' w expressionC E) (count offset : Nat)
    {maskCarry expressionCarry : Party → List (Share 64)} {f g : Nat → Bool} (hf : Carries C w maskCarry f)
    (hg : Carries C w expressionCarry g) (hm : offset + count + 2 ≤ m) (hn : offset + count + 1 ≤ n)
    (hm' : offset + count + 2 ≤ m') (hn' : offset + count + 1 ≤ n') :
    Succeeds (fun p => (sharedLayers (maskS p) (maskC p) (expressionS p) (expressionC p) count offset (maskCarry p)
      (expressionCarry p) : Proc R _)) fun r =>
      Carries C w (fun p => (r p).1) (fun i => layers (S i) (D i) offset count (f i)) ∧
      Carries C w (fun p => (r p).2) fun i => layers (T i) (E i) offset count (g i) := by
  induction count generalizing offset maskCarry expressionCarry f g with
  | zero =>
    refine Succeeds.pure ⟨hf.congr fun _ i => ?_, hg.congr fun _ i => ?_⟩
    · unfold layers
      rw [List.take_zero]
      rfl
    · unfold layers
      rw [List.take_zero]
      rfl
  | succ count ih =>
    have hm1 : offset + 2 < m := by omega
    have hn1 : offset + 1 < n := by omega
    have hm1' : offset + 2 < m' := by omega
    have hn1' : offset + 1 < n' := by omega
    refine (sharedLayer_carries (R := R) hS hD hT hE hf hg hm1 hn1 hm1' hn1').bind fun r hr => ?_
    refine (ih (offset + 1) hr.1 hr.2 (by omega) (by omega) (by omega) (by omega)).mono fun r' hr' => ?_
    refine ⟨hr'.1.congr fun hC i => ?_, hr'.2.congr fun hC i => ?_⟩
    · exact (layers_succ (by rw [hS.length hC]; omega) (by rw [hD.length hC]; omega) _).symm
    · exact (layers_succ (by rw [hT.length hC]; omega) (by rw [hE.length hC]; omega) _).symm

omit [Rng R] in
theorem dropLast_zipWith {α β γ : Type} {f : α → β → γ} {a : List α} {b : List β}
    (h : a.length = b.length) : (List.zipWith f a b).dropLast = List.zipWith f a.dropLast b.dropLast := by
  rw [List.dropLast_eq_take, List.dropLast_eq_take, List.dropLast_eq_take, List.take_zipWith, List.length_zipWith,
    h, Nat.min_self]

/-- What the last round makes of the bits of the expression and the carries. -/
def signOf (c : Bool) (t e : List Bool) (f g : Bool) : Bool :=
  t.getD 17 false ^^ e.getD 16 false ^^ (g ^^ ((t.getD 16 false ^^ g) && (e.getD 15 false ^^ g))) ^^ (c && f) ^^
    ((t.getD 16 false ^^ e.getD 15 false ^^ g) && (c ^^ f))

theorem finalRound_carries {maskCMsb maskCarry expressionCarry : Party → List (Share 64)} {c f g : Nat → Bool}
    (hT : CarriesPlanes C 18 w expressionS T) (hE : CarriesPlanes C 17 w expressionC E) (hc : Carries C w maskCMsb c)
    (hf : Carries C w maskCarry f) (hg : Carries C w expressionCarry g) :
    Succeeds (fun p => (finalRound (maskCMsb p) (expressionS p) (expressionC p) (maskCarry p) (expressionCarry p) :
      Proc R _)) fun r => Carries C w r fun i => signOf (c i) (T i) (E i) (f i) (g i) := by
  have ht := fun p => getElem?_eq_getD (hT.1 p) (show 16 < 18 by decide)
  have he := fun p => getElem?_eq_getD (hE.1 p) (show 15 < 17 by decide)
  have he16 := fun p => getElem?_eq_getD (hE.1 p) (show 16 < 17 by decide)
  have hlast : ∀ p, (expressionS p).getLast? = some ((expressionS p).getD 17 []) := by
    intro p
    rw [List.getLast?_eq_getElem?, (hT.1 p).1]
    exact getElem?_eq_getD (hT.1 p) (by decide)
  simp only [finalRound, ht, he, hlast, he16]
  have ht16 := hT.getD (show 16 < 18 by decide)
  have he15 := hE.getD (show 15 < 17 by decide)
  have hbit16 := (ht16.xorAssign he15).xorAssign hg
  refine (packedGates_carries (R := R)
    (.cons (ht16.xorAssign hg) (.cons hc (.cons hbit16 .nil)))
    (.cons (he15.xorAssign hg) (.cons hf (.cons (hc.xorAssign hf) .nil)))).bind
    fun (round : Party → List (List (Share 64))) hround => ?_
  obtain ⟨x, round, hx, hcx, hround⟩ := hround.uncons
  obtain ⟨y, round, hy, hcy, hround⟩ := hround.uncons
  obtain ⟨z, rest, hz, hcz, -⟩ := hround.uncons
  simp only [hx, hy, hz]
  exact Succeeds.pure (((((hT.getD (by decide)).xorAssign (hE.getD (by decide))).xorAssign
    (hg.xorAssign hcx)).xorAssign hcy).xorAssign hcz)

/-- The parts carry the sums and the inputs of the majorities of the bits `X1`, `X2` and `X3`. -/
structure CarriesParts (C : Prop) (m w : Nat) (parts : Party → ThreeWayAdderParts) (X1 X2 X3 : Nat → List Bool) :
    Prop where
  s : CarriesPlanes C m w (fun p => (parts p).s) fun i => BitSum.sums (X1 i) (X2 i) (X3 i)
  x1x3 : CarriesPlanes C m w (fun p => (parts p).x1x3) fun i => List.zipWith xor (X1 i) (X3 i)
  x2x3 : CarriesPlanes C m w (fun p => (parts p).x2x3) fun i => List.zipWith xor (X2 i) (X3 i)
  x3 : CarriesPlanes C m w (fun p => (parts p).x3) X3

theorem CarriesParts.hasBits {m : Nat} {parts : Party → ThreeWayAdderParts} {X1 X2 X3 : Nat → List Bool}
    (h : CarriesParts C m w parts X1 X2 X3) (p : Party) : (parts p).HasBits m :=
  ⟨(h.s.1 p).1, (h.x1x3.1 p).1, (h.x2x3.1 p).1, (h.x3.1 p).1⟩

/-- The sign bit the circuit computes from the bits of the masks and of the expressions. -/
def circuitSign (S D T E : List Bool) : Bool :=
  signOf (D.getD 15 false) T E.dropLast (layers S D.dropLast 0 14 (S.getD 1 false && D.dropLast.getD 0 false))
    (layers T E.dropLast 0 14 (T.getD 1 false && E.dropLast.getD 0 false))

theorem binaryAddAnonThresholdFromParts_carries {mask expression : Party → ThreeWayAdderParts}
    {X1 X2 X3 Y1 Y2 Y3 : Nat → List Bool} (hmask : CarriesParts C 16 w mask X1 X2 X3)
    (hexpression : CarriesParts C 18 w expression Y1 Y2 Y3) :
    Succeeds (fun p => (binaryAddAnonThresholdFromParts (mask p) (expression p) : Proc R _)) fun r =>
      Carries C w r fun i => circuitSign (BitSum.sums (X1 i) (X2 i) (X3 i)) (BitSum.majorities (X1 i) (X2 i) (X3 i))
        (BitSum.sums (Y1 i) (Y2 i) (Y3 i)) (BitSum.majorities (Y1 i) (Y2 i) (Y3 i)) := by
  have hbits : ∀ p, (mask p).HasBits 16 ∧ (expression p).HasBits 18 := fun p =>
    ⟨hmask.hasBits p, hexpression.hasBits p⟩
  have hzip : ∀ p, (mask p).x1x3.zip (mask p).x2x3 ++
      (expression p).x1x3.dropLast.zip (expression p).x2x3.dropLast =
      ((mask p).x1x3 ++ (expression p).x1x3.dropLast).zip ((mask p).x2x3 ++ (expression p).x2x3.dropLast) := by
    intro p
    refine (List.zip_append ?_).symm
    rw [(hmask.x1x3.1 p).1, (hmask.x2x3.1 p).1]
  simp only [binaryAddAnonThresholdFromParts, hbits, and_self, not_true_eq_false, if_false, hzip]
  refine (packedGates_carries (R := R) (hmask.x1x3.append hexpression.x1x3.dropLast)
    (hmask.x2x3.append hexpression.x2x3.dropLast)).bind
    fun (carries : Party → List (List (Share 64))) hcarries => ?_
  have hlen : ∀ p, ¬ (carries p).length < 16 := by
    intro p
    have h : (carries p).length = 33 := (hcarries.1 p).1
    omega
  simp only [hlen, if_false]
  have hmaskC : CarriesPlanes C 16 w (fun p => transposedPackXorAssign ((carries p).take 16) (mask p).x3)
      fun i => BitSum.majorities (X1 i) (X2 i) (X3 i) := by
    refine ((hcarries.take (by decide)).xorAssign hmask.x3).congr fun hC i => ?_
    have hleft := hmask.x1x3.length hC i
    have hright := hmask.x2x3.length hC i
    rw [List.take_zipWith, List.take_left' hleft, List.take_left' hright]
    rfl
  have hexpressionC : CarriesPlanes C 17 w
      (fun p => transposedPackXorAssign ((carries p).drop 16) (expression p).x3.dropLast)
      fun i => (BitSum.majorities (Y1 i) (Y2 i) (Y3 i)).dropLast := by
    refine ((hcarries.drop 16).xorAssign hexpression.x3.dropLast).congr fun hC i => ?_
    have hleft := hmask.x1x3.length hC i
    have hright := hmask.x2x3.length hC i
    have h13 := hexpression.x1x3.length hC i
    have h23 := hexpression.x2x3.length hC i
    have h3 := hexpression.x3.length hC i
    rw [List.drop_zipWith, List.drop_left' hleft, List.drop_left' hright]
    have hand := dropLast_zipWith (f := and) (h13.trans h23.symm)
    have hxor := dropLast_zipWith (f := xor) (b := Y3 i) ((List.length_zipWith (f := and)).trans
      ((congrArg₂ min h13 h23).trans ((Nat.min_self 18).trans h3.symm)))
    rw [hand] at hxor
    exact hxor.symm
  have hlast : ∀ p, (transposedPackXorAssign ((carries p).take 16) (mask p).x3).getLast? =
      some ((transposedPackXorAssign ((carries p).take 16) (mask p).x3).getD 15 []) := by
    intro p
    rw [List.getLast?_eq_getElem?, (hmaskC.1 p).1]
    exact getElem?_eq_getD (hmaskC.1 p) (by decide)
  have hs1 : ∀ p, (mask p).s[1]? = some ((mask p).s.getD 1 []) := fun p =>
    getElem?_eq_getD (hmask.s.1 p) (by decide)
  have hd0 := fun p => getElem?_eq_getD (hmaskC.dropLast.1 p) (show 0 < 15 by decide)
  have ht1 : ∀ p, (expression p).s[1]? = some ((expression p).s.getD 1 []) := fun p =>
    getElem?_eq_getD (hexpression.s.1 p) (by decide)
  have he0 := fun p => getElem?_eq_getD (hexpressionC.1 p) (show 0 < 17 by decide)
  simp only [hlast]
  -- the widths of the words and of the ring are the same
  dsimp only [RingTy.bits]
  simp only [hs1, hd0, ht1, he0]
  refine (packedGates_carries (R := R)
    (.cons (hmask.s.getD (show 1 < 16 by decide)) (.cons (hexpression.s.getD (show 1 < 18 by decide)) .nil))
    (.cons (hmaskC.dropLast.getD (show 0 < 15 by decide))
      (.cons (hexpressionC.getD (show 0 < 17 by decide)) .nil))).bind
    fun (first : Party → List (List (Share 64))) hfirst => ?_
  obtain ⟨x, first, hx, hcx, hfirst⟩ := hfirst.uncons
  obtain ⟨y, rest, hy, hcy, -⟩ := hfirst.uncons
  simp only [hx, hy]
  refine (sharedLayers_carries (R := R) hmask.s hmaskC.dropLast hexpression.s hexpressionC 14 0 hcx hcy
    (by decide) (by decide) (by decide) (by decide)).bind fun r hr => ?_
  exact finalRound_carries hexpression.s hexpressionC (hmaskC.getD (by decide)) hr.1 hr.2

end Layers

/-! ## The sign bit -/

/-- The second bit of a number, after two carries have been added to it. -/
theorem testBit_one_add (v h : Nat) (b1 b2 : Bool) :
    (v + 4 * h + (b1.toNat + 2 * b2.toNat)).testBit 1 = (v.testBit 1 ^^ b2 ^^ (v.testBit 0 && b1)) := by
  have hone : ∀ x : Nat, x.testBit 1 = decide (x % 4 / 2 = 1) := by
    intro x
    rw [Nat.testBit_succ, Nat.testBit_zero]
    congr 1
    rw [eq_iff_iff]
    omega
  have hzero : ∀ x : Nat, x.testBit 0 = decide (x % 4 % 2 = 1) := by
    intro x
    rw [Nat.testBit_zero, Nat.mod_mod_of_dvd x (by decide)]
  have hmod : (v + 4 * h + (b1.toNat + 2 * b2.toNat)) % 4 = (v % 4 + (b1.toNat + 2 * b2.toNat)) % 4 := by omega
  have hcases : ∀ r < 4, ∀ b1 b2 : Bool, decide ((r + (b1.toNat + 2 * b2.toNat)) % 4 / 2 = 1) =
      (decide (r / 2 = 1) ^^ b2 ^^ (decide (r % 2 = 1) && b1)) := by decide
  rw [hone, hone, hzero, hmod]
  exact hcases _ (Nat.mod_lt v (by decide)) b1 b2

/-- The circuit adds the carries of the masks to the expressions. -/
theorem circuitSign_eq {S D T E : List Bool} (hS : S.length = 16) (hD : D.length = 16) (hT : T.length = 18)
    (hE : E.length = 18) : circuitSign S D T E = (BitSum.value T + 2 * BitSum.value E +
      (BitSum.value S + 2 * BitSum.value D) / 2 ^ 16 * 2 ^ 16).testBit 17 := by
  have hE' : E.dropLast.length = 17 := by rw [List.length_dropLast, hE]
  have hlast : BitSum.value E = BitSum.value E.dropLast + 2 ^ 17 * (E.getD 17 false).toNat := by
    have hne : E ≠ [] := List.ne_nil_of_length_pos (by omega)
    have hget : E.getD 17 false = E.getLast hne := by
      rw [List.getLast_eq_getElem, List.getD_eq_getElem _ _ (by omega)]
      congr 1
      omega
    conv_lhs => rw [← List.dropLast_append_getLast hne]
    rw [BitSum.value_append, hE', hget]
    simp
  have hcarry : layers S D.dropLast 0 14 (S.getD 1 false && D.dropLast.getD 0 false) = BitSum.carryOut S D := by
    have hget : D.dropLast.getD 0 false = D.getD 0 false := by
      rw [List.getD_eq_getElem _ _ (by rw [List.length_dropLast]; omega), List.getD_eq_getElem _ _ (by omega),
        List.getElem_dropLast]
    unfold layers BitSum.carryOut BitSum.carry2
    rw [List.take_of_length_le (by rw [List.length_drop]; omega),
      List.take_of_length_le (by rw [List.length_drop, List.length_dropLast]; omega), hget]
  have htwo := BitSum.twoCarries (n := 14) hS hD
  have hfour := BitSum.sum_div_four (s := T) (c := E.dropLast) (by omega) (by omega)
  have hdrop : (T.drop 2).length = (E.dropLast.drop 1).length := by
    rw [List.length_drop, List.length_drop, hT, hE']
  have hlen : (T.drop 2).length = 16 := by rw [List.length_drop, hT]
  have hlen' : (E.dropLast.drop 1).length = 16 := by rw [List.length_drop, hE']
  have hgetT : ∀ i, (T.drop 2).getD i false = T.getD (i + 2) false := by
    intro i
    simp [Nat.add_comm]
  have hgetE : ∀ i, (E.dropLast.drop 1).getD i false = E.dropLast.getD (i + 1) false := by
    intro i
    simp
  have hhigh : ∀ x i : Nat, (x / 4).testBit (i + 14) = (x / 2 ^ 16).testBit i := by
    intro x i
    rw [Nat.testBit_add, Nat.div_div_eq_div_mul]
    rfl
  have hbit16 := BitSum.testBit_add hdrop (BitSum.carry2 T E.dropLast) (show 0 + 14 < _ by omega)
  have hbit17 := BitSum.testBit_add hdrop (BitSum.carry2 T E.dropLast) (show 1 + 14 < _ by omega)
  rw [← hfour, hhigh, hgetT, hgetE] at hbit16 hbit17
  rw [Nat.add_comm 1 14, BitSum.ripple_take_succ _ (by omega) (by omega), hgetT, hgetE] at hbit17
  have hsum : (BitSum.value T + 2 * BitSum.value E +
      (BitSum.value S + 2 * BitSum.value D) / 2 ^ 16 * 2 ^ 16) / 2 ^ 16 =
      (BitSum.value T + 2 * BitSum.value E.dropLast) / 2 ^ 16 + 4 * (E.getD 17 false).toNat +
        (BitSum.value S + 2 * BitSum.value D) / 2 ^ 16 := by
    omega
  rw [show 17 = 1 + 16 from rfl, Nat.testBit_add, hsum, ← htwo, testBit_one_add, hbit16, hbit17]
  unfold circuitSign signOf
  rw [hcarry]
  rfl


/-- Bit 31 of `code * 2^16 - mask * 2^14`. -/
def thresholdBit (code mask : BitVec 16) : Bool :=
  (BitVec.ofInt 32 (code.toNat * 2 ^ 16 - mask.toNat * 2 ^ 14)).getLsbD 31

theorem getLsbD_ofInt (n i : Nat) (z : Int) :
    (BitVec.ofInt n z).getLsbD i = decide ((z % 2 ^ n).toNat / 2 ^ i % 2 = 1) := by
  rw [← BitVec.testBit_toNat, BitVec.toNat_ofInt, Nat.testBit_eq_decide_div_mod_eq]
  norm_cast

/-- The sign in the ring with 18 bits. -/
theorem thresholdBit_eq (code mask : BitVec 16) :
    thresholdBit code mask = (BitVec.ofInt 18 (4 * code.toNat - mask.toNat)).getLsbD 17 := by
  have hcode := code.isLt
  have hmask := mask.isLt
  unfold thresholdBit
  rw [getLsbD_ofInt, getLsbD_ofInt]
  congr 1
  rw [eq_iff_iff]
  omega

theorem toNat_expressionComponent (code mask : BitVec 16) :
    (expressionComponent code mask).toNat % 2 ^ 18 = (4 * code.toNat + 2 ^ 18 - mask.toNat) % 2 ^ 18 := by
  have hcode := code.isLt
  have hmask := mask.isLt
  have hring : ((1#32 <<< 18) - 1).toNat = 2 ^ 18 - 1 := rfl
  have hshift : (code.setWidth 32 <<< 2).toNat = 4 * code.toNat := by
    rw [BitVec.toNat_shiftLeft, BitVec.toNat_setWidth_of_le (by decide), Nat.shiftLeft_eq]
    omega
  unfold expressionComponent
  rw [BitVec.toNat_and, hring, Nat.and_two_pow_sub_one_eq_mod, BitVec.toNat_sub, hshift,
    BitVec.toNat_setWidth_of_le (by decide)]
  omega

theorem expressions_mod (x0 x1 x2 : Nat) {y0 y1 y2 : Nat} (h0 : y0 < 2 ^ 16) (h1 : y1 < 2 ^ 16) (h2 : y2 < 2 ^ 16) :
    ((4 * x0 + 2 ^ 18 - y0) % 2 ^ 18 + (4 * x1 + 2 ^ 18 - y1) % 2 ^ 18 + (4 * x2 + 2 ^ 18 - y2) % 2 ^ 18) % 2 ^ 18 =
      (4 * (x0 + x1 + x2) + 3 * 2 ^ 18 - (y0 + y1 + y2)) % 2 ^ 18 := by
  omega

/-- The sum of the expressions of the components, with the carries of the masks. -/
theorem testBit_expressions (x y : Rep3 16) :
    ((expressionComponent (x 0) (y 0)).toNat % 2 ^ 18 + (expressionComponent (x 1) (y 1)).toNat % 2 ^ 18 +
      (expressionComponent (x 2) (y 2)).toNat % 2 ^ 18 +
      ((y 0).toNat + (y 1).toNat + (y 2).toNat) / 2 ^ 16 * 2 ^ 16).testBit 17 = thresholdBit x.sum y.sum := by
  have hmod := expressions_mod (x 0).toNat (x 1).toNat (x 2).toNat (y 0).isLt (y 1).isLt (y 2).isLt
  have hmasks : (y 0).toNat + (y 1).toNat + (y 2).toNat < 3 * 2 ^ 16 := by
    have h0 := (y 0).isLt
    have h1 := (y 1).isLt
    have h2 := (y 2).isLt
    omega
  rw [thresholdBit_eq, getLsbD_ofInt, Nat.testBit_eq_decide_div_mod_eq, toNat_expressionComponent,
    toNat_expressionComponent, toNat_expressionComponent]
  simp only [Rep3.sum, BitVec.toNat_add, Nat.mod_add_mod]
  generalize (4 * (x 0).toNat + 2 ^ 18 - (y 0).toNat) % 2 ^ 18 + (4 * (x 1).toNat + 2 ^ 18 - (y 1).toNat) % 2 ^ 18 +
    (4 * (x 2).toNat + 2 ^ 18 - (y 2).toNat) % 2 ^ 18 = e at *
  generalize (x 0).toNat + (x 1).toNat + (x 2).toNat = codes at *
  generalize (y 0).toNat + (y 1).toNat + (y 2).toNat = masks at *
  congr 1
  rw [eq_iff_iff]
  omega

/-- The low bits of a word. -/
def lowBits {K : Nat} (k : Nat) (x : BitVec K) : List Bool := (List.range k).map x.getLsbD

@[simp] theorem length_lowBits {K : Nat} (k : Nat) (x : BitVec K) : (lowBits k x).length = k := by
  rw [lowBits, List.length_map, List.length_range]

/-- The circuit computes the threshold bit from the bits of the components. -/
theorem circuitSign_components (x y : Rep3 16) :
    circuitSign (BitSum.sums (lowBits 16 (y 0)) (lowBits 16 (y 1)) (lowBits 16 (y 2)))
      (BitSum.majorities (lowBits 16 (y 0)) (lowBits 16 (y 1)) (lowBits 16 (y 2)))
      (BitSum.sums (lowBits 18 (expressionComponent (x 0) (y 0))) (lowBits 18 (expressionComponent (x 1) (y 1)))
        (lowBits 18 (expressionComponent (x 2) (y 2))))
      (BitSum.majorities (lowBits 18 (expressionComponent (x 0) (y 0))) (lowBits 18 (expressionComponent (x 1) (y 1)))
        (lowBits 18 (expressionComponent (x 2) (y 2)))) = thresholdBit x.sum y.sum := by
  have hsums : ∀ (k K : Nat) (a b c : BitVec K),
      (BitSum.sums (lowBits k a) (lowBits k b) (lowBits k c)).length = k := by
    intro k K a b c
    rw [BitSum.length_sums (by simp) (by simp), length_lowBits]
  have hmajorities : ∀ (k K : Nat) (a b c : BitVec K),
      (BitSum.majorities (lowBits k a) (lowBits k b) (lowBits k c)).length = k := by
    intro k K a b c
    rw [BitSum.length_majorities (by simp) (by simp), length_lowBits]
  rw [circuitSign_eq (hsums _ _ _ _ _) (hmajorities _ _ _ _ _) (hsums _ _ _ _ _) (hmajorities _ _ _ _ _),
    BitSum.value_sums_majorities (by simp) (by simp), BitSum.value_sums_majorities (by simp) (by simp)]
  unfold lowBits
  simp only [BitSum.value_range_mod]
  rw [Nat.mod_eq_of_lt (y 0).isLt, Nat.mod_eq_of_lt (y 1).isLt, Nat.mod_eq_of_lt (y 2).isLt]
  exact testBit_expressions x y

/-! ## The two paths -/

section Paths

theorem a2bPlanes_take (s : Session) (pick : Share 64 × Share 64 × Share 64 → Share 64)
    (planes : List (List (Share 64))) (k : Nat) :
    a2bPlanes s pick (planes.take k) = (a2bPlanes s pick planes).take k :=
  List.map_take

variable {R : Type} [Rng R] {C : Prop} {n w : Nat}

/-- The parts `binary_add_anon_threshold_fused` makes of packed shares that have been split. -/
def denseParts (s : Session) (packed : List (List (Share 64))) : ThreeWayAdderParts :=
  let (x1, x2, x3) := splitPackedAdditiveComponents s packed
  ⟨transposedPackXor x1 (transposedPackXorAssign x2 x3), transposedPackXorAssign x1 x3,
    transposedPackXorAssign x2 x3, x3⟩

/-- The low planes of packed shares, split. -/
theorem denseParts_carries (sid : BitVec 32) {t : RingTy} {k : Nat} (hk : k ≤ t.bits)
    {v : Party → List (Share t.bits)} (hv : ∀ p, (v p).length = n) {xs : List (Rep3 t.bits)}
    (hC : C → Shares v xs) :
    CarriesParts C k (words n) (fun p => denseParts ⟨p, sid⟩ ((transposePackU64 t (v p)).take k))
      (fun i => lowBits k (xs.getD i 0 0)) (fun i => lowBits k (xs.getD i 0 1))
      fun i => lowBits k (xs.getD i 0 2) := by
  have hrange : ∀ x : BitVec t.bits, ((List.range t.bits).map x.getLsbD).take k = lowBits k x := by
    intro x
    rw [← List.map_take, List.take_range, Nat.min_eq_left hk, lowBits]
  have hplanes := fun (e : Party) pick hpick =>
    (carriesPlanes_a2bPlanes (C := C) e sid (n := n) pick hpick hv hC).take hk
  simp only [hrange, ← a2bPlanes_take] at hplanes
  have h1 := hplanes 0 (·.1) (fun p x => by rw [a2bPre_view])
  have h2 := hplanes 1 (·.2.1) (fun p x => by rw [a2bPre_view])
  have h3 := hplanes 2 (·.2.2) (fun p x => by rw [a2bPre_view])
  exact ⟨h1.xor (h2.xorAssign h3), h1.xorAssign h3, h2.xorAssign h3, h3⟩

/-- The expressions of a code and a mask. -/
def expressionRep3 (x y : Rep3 16) : Rep3 32 := fun q => expressionComponent (x q) (y q)

omit [Rng R] in
theorem getD_zipWith {α β γ : Type} {f : α → β → γ} {a : List α} {b : List β} (h : a.length = b.length)
    {x : α} {y : β} {z : γ} (hf : f x y = z) (i : Nat) :
    (List.zipWith f a b).getD i z = f (a.getD i x) (b.getD i y) := by
  subst hf
  by_cases hi : i < b.length
  · have hi' : i < a.length := by omega
    simp [hi, hi']
  · have hi' : ¬ i < a.length := by omega
    simp [hi, hi']

theorem getD_expressions {xs ys : List (Rep3 16)} (h : xs.length = ys.length) (i : Nat) (e : Party) :
    (List.zipWith expressionRep3 xs ys).getD i 0 e = expressionComponent (xs.getD i 0 e) (ys.getD i 0 e) := by
  have hzero : expressionRep3 0 0 = 0 := funext fun _ => show expressionComponent 0 0 = 0 by decide
  rw [getD_zipWith h hzero]
  rfl

theorem extractAnonStatsMsbBatch_eq (s : Session) {codes masks : List (Share 16)} (hlen : codes.length = masks.length)
    (hne : codes ≠ []) : (extractAnonStatsMsbBatch s codes masks : Proc R _) =
      binaryAddAnonThresholdFromParts (denseParts s ((transposePackU64 .u16 masks).take 16))
        (denseParts s ((transposePackU64 .u32 (rawExpression codes masks)).take 18)) >>= fun bit17 =>
      pure ((convertToBits bit17).take codes.length) := by
  have hmasks : IsPlanes 16 (words masks.length) (transposePackU64 .u16 masks) := isPlanes_transposePackU64 .u16 rfl
  have hexpressions : IsPlanes 32 (words (rawExpression codes masks).length)
      (transposePackU64 .u32 (rawExpression codes masks)) := isPlanes_transposePackU64 .u32 rfl
  have hm : ∀ pick, (a2bPlanes s pick (transposePackU64 .u16 masks)).length = 16 := fun pick =>
    (List.length_map _).trans hmasks.1
  have he : ∀ pick,
      (a2bPlanes s pick ((transposePackU64 .u32 (rawExpression codes masks)).take 18)).length = 18 := by
    intro pick
    refine (List.length_map _).trans ?_
    rw [List.length_take, hexpressions.1]
    rfl
  have hempty : codes.isEmpty = false := List.isEmpty_eq_false_iff.mpr hne
  have htake : (transposePackU64 .u16 masks).take 16 = transposePackU64 .u16 masks :=
    List.take_of_length_le hmasks.1.le
  rw [htake]
  unfold extractAnonStatsMsbBatch binaryAddAnonThresholdFused
  simp only [hlen, hempty, splitPackedAdditiveComponents, denseParts, ne_eq, not_true_eq_false, if_false, hm, he,
    or_self]
  rfl

theorem extractAnonStatsMsbBatch_carries (sid : BitVec 32) {codes masks : Party → List (Share 16)}
    (hcodes : ∀ p, (codes p).length = n) (hmasks : ∀ p, (masks p).length = n) {xs ys : List (Rep3 16)}
    (hlen : xs.length = ys.length) (hxs : C → Shares codes xs) (hys : C → Shares masks ys) :
    Succeeds (fun p => (extractAnonStatsMsbBatch ⟨p, sid⟩ (codes p) (masks p) : Proc R _)) fun r =>
      CarriesBits C n r fun i => thresholdBit (xs.getD i 0).sum (ys.getD i 0).sum := by
  have hsame : ∀ p, (codes p).length = (masks p).length := fun p => (hcodes p).trans (hmasks p).symm
  by_cases hn : n = 0
  · have hnil : ∀ p, codes p = [] := fun p => List.length_eq_zero_iff.mp ((hcodes p).trans hn)
    subst hn
    simp only [extractAnonStatsMsbBatch, hnil, hmasks, List.isEmpty_nil, if_true]
    exact Succeeds.pure ⟨fun p => rfl, fun _ => ⟨[], fun p => rfl, rfl⟩⟩
  · have hne : ∀ p, codes p ≠ [] := by
      intro p hnil
      refine hn ?_
      rw [← hcodes p, hnil]
      rfl
    simp only [fun p => extractAnonStatsMsbBatch_eq (R := R) ⟨p, sid⟩ (hsame p) (hne p), hcodes]
    have hraw : ∀ p, (rawExpression (codes p) (masks p)).length = n := by
      intro p
      unfold rawExpression
      rw [List.length_zipWith, hcodes, hmasks, Nat.min_self]
    have hshares : C → Shares (fun p => rawExpression (codes p) (masks p)) (List.zipWith expressionRep3 xs ys) := by
      intro hC p
      show rawExpression (codes p) (masks p) = _
      rw [hxs hC p, hys hC p]
      unfold rawExpression
      rw [List.zipWith_map, List.map_zipWith]
      rfl
    have hmask := denseParts_carries (t := .u16) (k := 16) sid (by decide) hmasks hys
    have hexpression := denseParts_carries (t := .u32) (k := 18) sid (by decide) hraw hshares
    refine (binaryAddAnonThresholdFromParts_carries (R := R) hmask hexpression).bind fun bit17 hbit17 => ?_
    refine Succeeds.pure (hbit17.congr fun _ i => ?_).convertToBits
    have hsign := circuitSign_components (xs.getD i 0) (ys.getD i 0)
    simp only [← getD_expressions hlen] at hsign
    exact hsign

/-- The bits of codes and masks. -/
def thresholdBits (codes masks : List (BitVec 16)) : List (BitVec 1) :=
  List.zipWith (fun code mask => BitVec.ofBool (thresholdBit code mask)) codes masks

omit [Rng R] in
theorem map_range_thresholdBit {xs ys : List (Rep3 16)} (hlen : xs.length = ys.length) :
    (List.range xs.length).map (fun i => BitVec.ofBool (thresholdBit (xs.getD i 0).sum (ys.getD i 0).sum)) =
      thresholdBits (xs.map Rep3.sum) (ys.map Rep3.sum) := by
  unfold thresholdBits
  refine List.ext_getElem (by simp [hlen]) fun i hi hi' => ?_
  have hx : i < xs.length := by simpa using hi
  have hy : i < ys.length := by omega
  simp [hx, hy]

/-- The difference of a code and a lifted mask. -/
def diffRep3 (x : Rep3 16) (z : Rep3 32) : Rep3 32 := fun q => (x q).setWidth 32 <<< 16 - z q * 2 ^ 14

theorem sum_diffRep3 (x : Rep3 16) (z : Rep3 32) :
    (diffRep3 x z).sum = x.sum.setWidth 32 <<< 16 - z.sum * 2 ^ 14 := by
  rw [← sum_shl (by decide)]
  simp only [Rep3.sum, diffRep3]
  ring

theorem getBitAsBit_diff (code mask : BitVec 16) :
    getBitAsBit (code.setWidth 32 <<< 16 - mask.setWidth 32 * 2 ^ 14) 31 =
      BitVec.ofBool (thresholdBit code mask) := by
  have hdiff : code.setWidth 32 <<< 16 - mask.setWidth 32 * 2 ^ 14 =
      BitVec.ofInt 32 (code.toNat * 2 ^ 16 - mask.toNat * 2 ^ 14) := by
    have hcode := code.isLt
    have hmask := mask.isLt
    have hpow : (2 ^ 14 : BitVec 32).toNat = 2 ^ 14 := rfl
    refine BitVec.eq_of_toNat_eq ?_
    rw [BitVec.toNat_ofInt, BitVec.toNat_sub, BitVec.toNat_shiftLeft, BitVec.toNat_mul, hpow,
      BitVec.toNat_setWidth_of_le (by decide), BitVec.toNat_setWidth_of_le (by decide), Nat.shiftLeft_eq]
    omega
  rw [hdiff]
  rfl

theorem fhdGreaterThan_succeeds (sid : BitVec 32) {codes masks : Party → List (Share 16)} {xs ys : List (Rep3 16)}
    (hlen : xs.length = ys.length) (hxs : Shares codes xs) (hys : Shares masks ys) :
    Succeeds (fun p => (liftFhdMaskDots ⟨p, sid⟩ (masks p) >>= fun lifted =>
      fhdGreaterThanThresholdPreLiftedMasks ⟨p, sid⟩ (codes p) lifted (2 ^ 14) : Proc R _)) fun r =>
      ∃ bits, Shares r bits ∧ bits.map Rep3.xor = thresholdBits (xs.map Rep3.sum) (ys.map Rep3.sum) := by
  have hlift := lift_succeeds (R := R) (C := True) sid (fun p => hys.length p) fun _ => hys
  refine hlift.bind fun lifted hlifted => ?_
  obtain ⟨zs, hzs, hsum⟩ := hlifted.2 trivial
  have hsame : ∀ p, (codes p).length = (lifted p).length := by
    intro p
    rw [hxs.length, hlifted.1, hlen]
  have hz : zs.length = ys.length := (hzs.length 0).symm.trans (hlifted.1 0)
  simp only [fhdGreaterThanThresholdPreLiftedMasks, hsame, ne_eq, not_true_eq_false, if_false]
  have hdiffs : Shares (fun p => List.zipWith (fun (codeDot : Share 16) (maskDot : Share 32) =>
      mulLift2kTo32 16 codeDot - ⟨maskDot.a * 2 ^ 14, maskDot.b * 2 ^ 14⟩) (codes p) (lifted p))
      (List.zipWith diffRep3 xs zs) := by
    intro p
    show List.zipWith _ (codes p) (lifted p) = _
    rw [hxs p, hzs p, List.zipWith_map, List.map_zipWith]
    rfl
  refine (extractMsbBatch_succeeds (R := R) (t := .u32) sid fun p => hdiffs.length p).mono fun r hr => ?_
  obtain ⟨bits, hbits, hxor⟩ := hr.2 _ hdiffs
  refine ⟨bits, hbits, hxor.trans ?_⟩
  have hbit : ∀ (x : Rep3 16) (z : Rep3 32), getBitAsBit (diffRep3 x z).sum 31 =
      getBitAsBit (x.sum.setWidth 32 <<< 16 - z.sum * 2 ^ 14) 31 := by
    intro x z
    rw [sum_diffRep3]
  calc (List.zipWith diffRep3 xs zs).map (fun x => getBitAsBit x.sum 31)
      = List.zipWith (fun (x : Rep3 16) (z : Rep3 32) =>
          getBitAsBit (x.sum.setWidth 32 <<< 16 - z.sum * 2 ^ 14) 31) xs zs := by
        rw [List.map_zipWith]
        simp only [hbit]
    _ = List.zipWith (fun (code : BitVec 16) (z : BitVec 32) => getBitAsBit (code.setWidth 32 <<< 16 - z * 2 ^ 14) 31)
          (xs.map Rep3.sum) (zs.map Rep3.sum) := by
        rw [List.zipWith_map]
    _ = thresholdBits (xs.map Rep3.sum) (ys.map Rep3.sum) := by
        rw [hsum, List.zipWith_map, thresholdBits, List.zipWith_map]
        simp only [getBitAsBit_diff]

/-- **The circuit for the fixed threshold computes the generic comparison**, for every pair of vectors, every
sharing, session and stream and in every schedule: both open bit 31 of `code * 2^16 - mask * 2^14` modulo `2^32`,
which is bit 17 of `4 * code - mask` modulo `2^18`. -/
theorem extractAnonStatsMsbBatch_eq_generic (sid : BitVec 32) (codes masks : List (BitVec 16))
    (hlen : codes.length = masks.length) (xs ys : List (Rep3 16)) (hxs : xs.map Rep3.sum = codes)
    (hys : ys.map Rep3.sum = masks) (σ : Party → Prf R) (hσ : Lockstep σ) :
    (Network.Settles nextParty (fun p => (extractAnonStatsMsbBatch ⟨p, sid⟩ (xs.map (Rep3.view p))
        (ys.map (Rep3.view p)) >>= fun bits => openBin bits) (σ p)) fun o =>
      ∀ p, (o p).1 = .ok (thresholdBits codes masks)) ∧
    (Network.Settles nextParty (fun p => (liftFhdMaskDots ⟨p, sid⟩ (ys.map (Rep3.view p)) >>= fun lifted =>
        fhdGreaterThanThresholdPreLiftedMasks ⟨p, sid⟩ (xs.map (Rep3.view p)) lifted (2 ^ 14) >>= fun bits =>
        openBin bits) (σ p)) fun o =>
      ∀ p, (o p).1 = .ok (thresholdBits codes masks)) ∧
    ∀ code mask : BitVec 16,
      thresholdBit code mask = (BitVec.ofInt 18 (4 * code.toNat - mask.toNat)).getLsbD 17 := by
  subst hxs hys
  rw [List.length_map, List.length_map] at hlen
  have hx : Shares (fun p => xs.map (Rep3.view p)) xs := fun p => rfl
  have hy : Shares (fun p => ys.map (Rep3.view p)) ys := fun p => rfl
  refine ⟨?_, ?_, thresholdBit_eq⟩
  · have hcircuit := extractAnonStatsMsbBatch_carries (R := R) (C := True) sid hx.length
      (fun p => (hy.length p).trans hlen.symm) hlen (fun _ => hx) fun _ => hy
    refine openBin_settles (hcircuit.mono fun r hr => ?_) hσ
    obtain ⟨bits, hbits, hxor⟩ := hr.2 trivial
    exact ⟨bits, hbits, hxor.trans (map_range_thresholdBit hlen)⟩
  · have hgeneric := openBin_settles (fhdGreaterThan_succeeds (R := R) sid hlen hx hy) hσ
    simp only [bind_assoc] at hgeneric
    exact hgeneric

theorem extractAnonStatsMsbBatch_eq_generic_pair :
    (Network.Settles nextParty (fun p => (extractAnonStatsMsbBatch ⟨p, 1⟩
        ([![0xffff, 5, 3], ![0, 1, 0]].map (Rep3.view p)) ([![20, 0, 0], ![0xfffe, 3, 4]].map (Rep3.view p)) >>=
        fun bits => openBin bits) (stepStreams p)) fun o => ∀ p, (o p).1 = .ok [0, 1]) ∧
    (Network.Settles nextParty (fun p => (liftFhdMaskDots ⟨p, 1⟩
        ([![20, 0, 0], ![0xfffe, 3, 4]].map (Rep3.view p)) >>= fun lifted =>
        fhdGreaterThanThresholdPreLiftedMasks ⟨p, 1⟩ ([![0xffff, 5, 3], ![0, 1, 0]].map (Rep3.view p)) lifted
          (2 ^ 14) >>= fun bits => openBin bits) (stepStreams p)) fun o => ∀ p, (o p).1 = .ok [0, 1]) := by
  have hbits : thresholdBits [7, 1] [20, 5] = [0, 1] := by decide
  obtain ⟨hcircuit, hgeneric, -⟩ := extractAnonStatsMsbBatch_eq_generic 1 [7, 1] [20, 5] rfl
    [![0xffff, 5, 3], ![0, 1, 0]] [![20, 0, 0], ![0xfffe, 3, 4]] rfl rfl stepStreams lockstep_stepStreams
  rw [hbits] at hcircuit hgeneric
  exact ⟨hcircuit, hgeneric⟩

end Paths

end AmpcCommon.Protocol
