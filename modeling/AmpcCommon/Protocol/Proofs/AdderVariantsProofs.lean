import AmpcCommon.Protocol.Adders
import AmpcCommon.Protocol.Proofs.CircuitProofs

/-!
# The two adders, proofs

On plain bits both adders compute the ripple of the carries (`carryAll_eq_ripple`), so both return the highest bit of
the sum of the numbers in a lane (`sumMsb_eq_testBit`, `adders_agree`). The assertion in the loop of the parallel prefix
adder never fails: a gate returns as many vectors as it is given, whatever the other parties send
(`transposedPackAnd_bind_congr`), and a round keeps the lengths one apart (`prefixLoopChecked_eq`).
-/

namespace AmpcCommon.Protocol

/-! ## Carries as a ripple -/

theorem carryOf_eq_ripple (a b : List Bool) (c : Bool) :
    carryOf c (List.zipWith xor a b) (List.zipWith and a b) = BitSum.ripple a b c := by
  have hstep : ∀ x y c : Bool, ((x && y) ^^ ((x ^^ y) && c)) = (c ^^ ((x ^^ c) && (y ^^ c))) := by decide
  induction a generalizing b c with
  | nil => rfl
  | cons x a ih =>
    cases b with
    | nil => rfl
    | cons y b =>
      simp only [List.zipWith_cons_cons, carryOf, BitSum.ripple]
      rw [hstep]
      exact ih _ _

theorem carryAll_eq_ripple (a b : List Bool) :
    carryAll ((List.zipWith xor a b).drop 1) (List.zipWith and a b) = BitSum.ripple a b false := by
  cases a with
  | nil => rfl
  | cons x a =>
    cases b with
    | nil => rfl
    | cons y b =>
      have hfirst : (x && y) = (false ^^ ((x ^^ false) && (y ^^ false))) := by
        cases x <;> cases y <;> rfl
      show carryOf (x && y) (List.zipWith xor a b) (List.zipWith and a b) = _
      rw [carryOf_eq_ripple, hfirst]
      rfl

/-- The highest bit of a sum of two numbers with `m + 1` bits. -/
theorem msb_eq_testBit {a b : List Bool} {m : Nat} (ha : a.length = m + 1) (hb : b.length = m + 1) :
    (a.getD m false ^^ b.getD m false ^^ BitSum.ripple (a.take m) (b.take m) false) =
      ((BitSum.value a + BitSum.value b) % 2 ^ (m + 1)).testBit m := by
  have hbit := BitSum.testBit_add (ha.trans hb.symm) false (i := m) (by omega)
  rw [Nat.testBit_mod_two_pow, ← hbit]
  simp

theorem getLastD_eq_getD {l : List Bool} {m : Nat} (h : l.length = m + 1) : l.getLastD false = l.getD m false := by
  rw [List.getLastD_eq_getLast?, List.getLast?_eq_getElem?, h, List.getD_eq_getElem?_getD]
  rfl

theorem sumMsb_eq_testBit {a b : List Bool} {m : Nat} (ha : a.length = m + 1) (hb : b.length = m + 1) :
    sumMsb a b = ((BitSum.value a + BitSum.value b) % 2 ^ (m + 1)).testBit m := by
  have hzip : (List.zipWith xor a b).length = m + 1 := by
    rw [List.length_zipWith, ha, hb, Nat.min_self]
  have htake : ∀ {l : List Bool}, l.length = m + 1 → l.dropLast = l.take m := by
    intro l hl
    rw [List.dropLast_eq_take, hl]
    rfl
  have hlast : (List.zipWith xor a b).getD m false = (a.getD m false ^^ b.getD m false) := by
    rw [List.getD_eq_getElem _ _ (by omega), List.getD_eq_getElem _ _ (by omega), List.getD_eq_getElem _ _ (by omega),
      List.getElem_zipWith]
  have hcarry : carryAll ((List.zipWith xor a b).dropLast.drop 1) (List.zipWith and a.dropLast b.dropLast) =
      BitSum.ripple (a.take m) (b.take m) false := by
    rw [htake hzip, htake ha, htake hb, List.take_zipWith]
    exact carryAll_eq_ripple _ _
  rw [← msb_eq_testBit ha hb, sumMsb, getLastD_eq_getD hzip, hlast, hcarry]

/-! ## The assertion in the loop -/

section Checked

variable {R α : Type} [Rng R] {t : RingTy}

/-- What follows a gate has to be known for lists of the length of the inputs only. -/
theorem transposedPackAnd_bind_congr {x y : List (List (Share t.bits))}
    {f g : List (List (Share t.bits)) → Proc R α} (h : ∀ tmp, tmp.length = x.length → f tmp = g tmp) :
    (transposedPackAnd t x y >>= f) = (transposedPackAnd t x y >>= g) := by
  have hlen : ∀ (sizes : List Nat) (a b : List (BitVec t.bits)), (regroup sizes a b).length = sizes.length := by
    intro sizes
    induction sizes with
    | nil => exact fun _ _ => rfl
    | cons l ls ih => exact fun a b => congrArg Nat.succ (ih _ _)
  funext prf
  unfold transposedPackAnd
  split
  next => rfl
  next =>
    split
    next => rfl
    next =>
      simp only [Proc.bind_apply, Process.bind_assoc]
      congr 1
      funext sent
      rcases sent with ⟨sent | sent, prf⟩
      · rfl
      · simp only [Proc.andThen, Proc.bind_apply, Process.bind_assoc]
        congr 1
        funext received
        rcases received with ⟨received | received, prf⟩
        · rfl
        · dsimp only
          split
          next => rfl
          next => exact congrFun (h _ ((hlen _ _ _).trans (List.length_map _))) prf

/-- **The lengths of the loop.** With one propagate less than generates, the assertion holds in every round. -/
theorem prefixLoopChecked_eq (fuel : Nat) {ps gs : List (List (Share t.bits))} (h : ps.length + 1 = gs.length) :
    (prefixLoopChecked t fuel ps gs : Proc R _) = prefixLoop t fuel ps gs := by
  induction fuel generalizing ps gs with
  | zero => rfl
  | succ fuel ih =>
    by_cases hone : gs.length = 1
    · rw [prefixLoopChecked, prefixLoop, if_neg (not_not.mpr h), if_pos hone, if_pos hone]
    · have hmany : 1 < gs.length := by omega
      rw [prefixLoop_step fuel h hmany, prefixLoopChecked, if_neg (not_not.mpr h), if_neg hone,
        prefixLoopRound_eq h hmany, bind_assoc]
      simp only [pure_bind]
      refine transposedPackAnd_bind_congr fun tmp htmp => ih ?_
      obtain ⟨hfst, hsnd⟩ := length_roundFinish vecShareXor h hmany (htmp.trans (length_roundLeft_right h).1)
      omega

theorem binaryAdd2GetMsbChecked_eq {n w : Nat} {a b : List (List (Share t.bits))} (ha : IsPlanes (n + 2) w a)
    (hb : IsPlanes (n + 2) w b) : (binaryAdd2GetMsbChecked t a b : Proc R _) = binaryAdd2GetMsb t a b := by
  have hlen : a.length = b.length := by rw [ha.1, hb.1]
  have hp : (transposedPackXor a b).length = n + 2 := (ha.transposedPackXor hb).1
  unfold binaryAdd2GetMsbChecked binaryAdd2GetMsb prefixAdder
  rw [if_neg (not_not.mpr hlen), if_neg (not_not.mpr hlen)]
  refine transposedPackAnd_bind_congr fun g hg => ?_
  rw [List.length_dropLast, ha.1] at hg
  have hdrop : ((transposedPackXor a b).dropLast.drop 1).length + 1 = g.length := by
    rw [List.length_drop, List.length_dropLast, hp, hg]
    omega
  have hloop := prefixLoopChecked_eq (R := R) g.length hdrop
  exact hloop ▸ rfl

end Checked

/-! ## The results of the adders -/

section Adders

variable {R : Type} [Rng R] {t : RingTy}

/-- The parties hold a sharing of vectors that have the highest bit of a sum in every lane. -/
def OpensToMsb (width w : Nat) (xss yss : List (List (Rep3 t.bits)))
    (r : Party → List (Share t.bits)) : Prop :=
  ∃ zs, Shares r zs ∧ zs.length = w ∧ ∀ j, ∀ n < t.bits, lane j n (zs.map Rep3.xor) =
    ((BitSum.value (lanes j n xss) + BitSum.value (lanes j n yss)) % 2 ^ width).testBit (width - 1)

variable {m w : Nat} {xss yss : List (List (Rep3 t.bits))}

theorem length_lanes (hx : IsPlanes m w xss) (j n : Nat) : (lanes j n xss).length = m := by
  rw [lanes, opened, List.length_map, List.length_map, hx.1]

theorem isPlanes_view (hx : IsPlanes m w xss) (p : Party) : IsPlanes m w (xss.map (List.map (Rep3.view p))) := by
  refine ⟨by rw [List.length_map, hx.1], fun x hmem => ?_⟩
  obtain ⟨y, hy, rfl⟩ := List.mem_map.mp hmem
  rw [List.length_map, hx.2 y hy]

/-- The parallel prefix adder. -/
theorem binaryAdd2GetMsb_opens (hx : IsPlanes (m + 2) w xss) (hy : IsPlanes (m + 2) w yss) :
    Succeeds (fun p => (binaryAdd2GetMsb t (xss.map (List.map (Rep3.view p))) (yss.map (List.map (Rep3.view p))) :
      Proc R _)) (OpensToMsb (m + 2) w xss yss) := by
  refine (binaryAdd2GetMsb_succeeds (fun p => isPlanes_view hx p) fun p => isPlanes_view hy p).mono fun r hr => ?_
  obtain ⟨zs, hzs, hlane⟩ := hr.2 xss yss (fun p => rfl) fun p => rfl
  refine ⟨zs, hzs, by rw [← hzs.length 0, hr.1], fun j n _ => ?_⟩
  rw [hlane, sumMsb_eq_testBit (length_lanes hx j n) (length_lanes hy j n)]
  rfl

/-- The ripple-carry adder, after the checks of its inputs. -/
theorem binaryAdd2GetMsbRipple_eq {a b : List (List (Share t.bits))} (ha : IsPlanes (m + 2) w a)
    (hb : IsPlanes (m + 2) w b) :
    (binaryAdd2GetMsbRipple t a b : Proc R _) =
      (andMany t (a.getD 0 []) (b.getD 0 []) >>= fun carry =>
        carryLoop t (a.dropLast.drop 1) (b.dropLast.drop 1) carry >>= fun carry =>
          pure (vecShareXor (vecShareXor (a.getD (m + 1) []) (b.getD (m + 1) [])) carry)) := by
  have hparts : ∀ {l : List (List (Share t.bits))}, l.length = m + 2 → l.getLast? = some (l.getD (m + 1) []) ∧
      l.dropLast = l.getD 0 [] :: l.dropLast.drop 1 := by
    intro l hl
    obtain ⟨x, l, rfl⟩ := List.exists_cons_of_length_eq_add_one hl
    obtain ⟨y, l, rfl⟩ := List.exists_cons_of_length_eq_add_one (Nat.succ.inj hl)
    refine ⟨?_, rfl⟩
    rw [List.getLast?_eq_getElem?, hl, List.getD_eq_getElem _ _ (by omega)]
    exact List.getElem?_eq_getElem (by omega)
  obtain ⟨haLast, haInit⟩ := hparts ha.1
  obtain ⟨hbLast, hbInit⟩ := hparts hb.1
  unfold binaryAdd2GetMsbRipple
  rw [if_neg (by rw [ha.1, hb.1]; exact not_not.mpr rfl), haLast, hbLast, haInit, hbInit]
  rfl

/-- The lanes that a sharing of planes carries. -/
theorem carriesPlanes_view (hx : IsPlanes m w xss) :
    CarriesPlanes True m w (fun p => xss.map (List.map (Rep3.view p))) fun i => lanes (i / t.bits) (i % t.bits) xss :=
  ⟨isPlanes_view hx, fun _ => ⟨xss, fun _ => rfl, fun _ => rfl⟩⟩

/-- The highest bit, from the bits and the carry that the ripple-carry adder computes. -/
theorem ripple_eq_testBit {a b : List Bool} (ha : a.length = m + 2) (hb : b.length = m + 2) :
    (a.getD (m + 1) false ^^ b.getD (m + 1) false ^^ BitSum.ripple (a.dropLast.drop 1) (b.dropLast.drop 1)
      (a.getD 0 false && b.getD 0 false)) = ((BitSum.value a + BitSum.value b) % 2 ^ (m + 2)).testBit (m + 1) := by
  have hsplit : ∀ {l : List Bool}, l.length = m + 2 → l.take (m + 1) = l.getD 0 false :: l.dropLast.drop 1 := by
    intro l hl
    have htake : l.take (m + 1) = l.dropLast := by
      rw [List.dropLast_eq_take, hl]
      rfl
    obtain ⟨x, l, rfl⟩ := List.exists_cons_of_length_eq_add_one hl
    obtain ⟨y, l, rfl⟩ := List.exists_cons_of_length_eq_add_one (Nat.succ.inj hl)
    rw [htake]
    rfl
  rw [← msb_eq_testBit ha hb, hsplit ha, hsplit hb]
  simp only [BitSum.ripple, Bool.xor_false, Bool.false_xor]

/-- The ripple-carry adder. -/
theorem binaryAdd2GetMsbRipple_opens (hx : IsPlanes (m + 2) w xss) (hy : IsPlanes (m + 2) w yss) :
    Succeeds (fun p => (binaryAdd2GetMsbRipple t (xss.map (List.map (Rep3.view p)))
      (yss.map (List.map (Rep3.view p))) : Proc R _)) (OpensToMsb (m + 2) w xss yss) := by
  have ha := carriesPlanes_view (t := t) hx
  have hb := carriesPlanes_view (t := t) hy
  simp only [fun p => binaryAdd2GetMsbRipple_eq (R := R) (isPlanes_view hx p) (isPlanes_view hy p)]
  have hfirst := andMany_carries (R := R) (ha.getD (Nat.succ_pos _)) (hb.getD (Nat.succ_pos _))
  refine hfirst.bind fun carry hcarry => ?_
  refine (carryLoop_carries (ha.dropLast.drop 1) (hb.dropLast.drop 1) hcarry).bind fun carry hcarry => ?_
  have hlast : m + 1 < m + 2 := Nat.lt_succ_self _
  have hresult := ((ha.getD hlast).xor (hb.getD hlast)).xor hcarry
  obtain ⟨zs, hzs, hlane⟩ := hresult.2 trivial
  refine Succeeds.pure ⟨zs, hzs, by rw [← hzs.length 0, hresult.1], fun j n hn => ?_⟩
  have hdiv : (j * t.bits + n) / t.bits = j := by
    rw [Nat.mul_comm, Nat.mul_add_div (Nat.zero_lt_of_lt hn), Nat.div_eq_of_lt hn, Nat.add_zero]
  have hmod : (j * t.bits + n) % t.bits = n := by
    rw [Nat.mul_comm, Nat.mul_add_mod, Nat.mod_eq_of_lt hn]
  have hbit := hlane (j * t.bits + n)
  simp only [hdiv, hmod] at hbit
  exact hbit.trans (ripple_eq_testBit (length_lanes hx j n) (length_lanes hy j n))

/-- **The adders agree.** For every width of at least two bits, every sharing of the planes and all streams, both adders
settle in every schedule: the results are consistently replicated and have the same secrets, the highest bits of the
sums in the lanes. The parallel prefix adder that asserts the invariant of its loop is the same program. -/
theorem adders_agree {width : Nat} (hwidth : 2 ≤ width) (hx : IsPlanes width w xss) (hy : IsPlanes width w yss)
    (σ τ : Party → Prf R) (hσ : Lockstep σ) (hτ : Lockstep τ) :
    (∀ p, (binaryAdd2GetMsbChecked t (xss.map (List.map (Rep3.view p))) (yss.map (List.map (Rep3.view p))) :
      Proc R _) = binaryAdd2GetMsb t (xss.map (List.map (Rep3.view p))) (yss.map (List.map (Rep3.view p)))) ∧
    Network.Settles nextParty (fun p => binaryAdd2GetMsb t (xss.map (List.map (Rep3.view p)))
      (yss.map (List.map (Rep3.view p))) (σ p)) (fun o =>
        ∃ r, (∀ p, (o p).1 = .ok (r p)) ∧ OpensToMsb width w xss yss r) ∧
    Network.Settles nextParty (fun p => binaryAdd2GetMsbRipple t (xss.map (List.map (Rep3.view p)))
      (yss.map (List.map (Rep3.view p))) (τ p)) (fun o =>
        ∃ r, (∀ p, (o p).1 = .ok (r p)) ∧ OpensToMsb width w xss yss r) := by
  obtain ⟨m, rfl⟩ := Nat.exists_eq_add_of_le' hwidth
  refine ⟨fun p => binaryAdd2GetMsbChecked_eq (isPlanes_view hx p) (isPlanes_view hy p), ?_, ?_⟩
  · refine ((binaryAdd2GetMsb_opens hx hy).settles hσ).mono ?_
    rintro o ⟨r, σ', ho, -, hr⟩
    exact ⟨r, fun p => congrArg Prod.fst (ho p), hr⟩
  · refine ((binaryAdd2GetMsbRipple_opens hx hy).settles hτ).mono ?_
    rintro o ⟨r, σ', ho, -, hr⟩
    exact ⟨r, fun p => congrArg Prod.fst (ho p), hr⟩

/-- The planes of two three-bit numbers in the lowest lane, 3 and 1. -/
def threePlanes : List (List (Rep3 16)) × List (List (Rep3 16)) :=
  ([[![1, 0, 0]], [![1, 0, 0]], [![5, 5, 0]]], [[![0, 2, 3]], [![0, 0, 0]], [![1, 1, 0]]])

theorem adders_agree_three :
    Network.Settles nextParty (fun p => binaryAdd2GetMsbRipple .u16 (threePlanes.1.map (List.map (Rep3.view p)))
      (threePlanes.2.map (List.map (Rep3.view p))) (stepStreams p)) fun o =>
        ∃ zs : List (Rep3 16), (∀ p, (o p).1 = .ok (zs.map (Rep3.view p))) ∧ lane 0 0 (zs.map Rep3.xor) = true := by
  have hx : IsPlanes 3 1 threePlanes.1 := ⟨rfl, by simp [threePlanes]⟩
  have hy : IsPlanes 3 1 threePlanes.2 := ⟨rfl, by simp [threePlanes]⟩
  obtain ⟨-, -, hripple⟩ := adders_agree (t := .u16) (by decide) hx hy stepStreams stepStreams lockstep_stepStreams
    lockstep_stepStreams
  refine hripple.mono ?_
  rintro o ⟨r, ho, zs, hzs, -, hlane⟩
  exact ⟨zs, fun p => (ho p).trans (congrArg Except.ok (hzs p)), hlane 0 0 (by decide)⟩

end Adders

end AmpcCommon.Protocol
