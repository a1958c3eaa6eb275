import AmpcCommon.Protocol.Ops
import AmpcCommon.Protocol.Proofs.GateProofs

/-!
# Resharing, proofs

Additive shares are masked with shares of zero and handed to the next party: the result is a consistent
sharing of the sums, whatever the parties put in (`IsReshare`).
-/

namespace AmpcCommon.Protocol

variable {K : Nat}

/-- The result `r` of resharing the additive shares `items`. -/
def IsReshare (n : Nat) (items : Party → List (BitVec K)) (r : Party → List (Share K)) : Prop :=
  ∃ zs, zs.length = n ∧ Shares r zs ∧
    zs.map Rep3.sum = (List.range n).map fun i => Rep3.sum fun p => (items p).getD i 0

theorem IsReshare.length {n : Nat} {items : Party → List (BitVec K)} {r : Party → List (Share K)}
    (h : IsReshare n items r) (p : Party) : (r p).length = n := by
  obtain ⟨zs, hn, hr, -⟩ := h
  rw [hr.length, hn]

/-- The shares of zero cancel. -/
theorem isReshare_masked {n : Nat} {items loc : Party → List (BitVec K)} (mine : Party → List (BitVec K))
    (hloc : ∀ p, (loc p).length = n) (hget : ∀ p i, i < n → (loc p).getD i 0 =
      (mine p).getD i 0 - (mine (p - 1)).getD i 0 + (items p).getD i 0) :
    IsReshare n items fun p => fromAb (loc p) (loc (p - 1)) := by
  refine ⟨joinParts n loc, length_joinParts n loc, shares_fromAb hloc, ?_⟩
  unfold joinParts
  rw [List.map_map]
  apply List.map_congr_left
  intro i hi
  have h0 : (0 : Party) - 1 = 2 := by decide
  have h1 : (1 : Party) - 1 = 0 := by decide
  have h2 : (2 : Party) - 1 = 1 := by decide
  have hi := List.mem_range.mp hi
  simp only [Function.comp_apply, Rep3.sum, hget _ i hi, h0, h1, h2]
  ring

/-- The additive shares of a party, masked with a share of zero. -/
def zeroMasked (items mine : Party → List (BitVec K)) (p : Party) : List (BitVec K) :=
  List.zipWith (fun x zeroShare => zeroShare + x) (items p) (List.zipWith (· - ·) (mine p) (mine (p - 1)))

section ZeroMasked

variable {n : Nat} {items mine : Party → List (BitVec K)} (hitems : ∀ p, (items p).length = n)
  (hmine : ∀ p, (mine p).length = n)

include hitems hmine

theorem length_zeroMasked (p : Party) : (zeroMasked items mine p).length = n := by
  unfold zeroMasked
  rw [List.length_zipWith, List.length_zipWith, hitems, hmine, hmine, Nat.min_self, Nat.min_self]

theorem isReshare_zeroMasked :
    IsReshare n items fun p => fromAb (zeroMasked items mine p) (zeroMasked items mine (p - 1)) := by
  refine isReshare_masked mine (length_zeroMasked hitems hmine) ?_
  intro p i hi
  have hmine' : ∀ q, i < (mine q).length := fun q => hi.trans_eq (hmine q).symm
  have hitem : i < (items p).length := hi.trans_eq (hitems p).symm
  unfold zeroMasked
  rw [List.getD_eq_getElem _ _ hitem, List.getD_eq_getElem _ _ (hmine' p), List.getD_eq_getElem _ _ (hmine' (p - 1)),
    List.getD_eq_getElem _ _ (by simp [hitem, hmine']), List.getElem_zipWith, List.getElem_zipWith]

end ZeroMasked

variable {R : Type} [Rng R]

theorem galoisRingToRep3_succeeds {n : Nat} {items : Party → List (BitVec 16)} (hitems : ∀ p, (items p).length = n) :
    Succeeds (fun p => (galoisRingToRep3 (items p) : Proc R _)) (IsReshare n items) := by
  simp only [galoisRingToRep3, galoisRingToRep3Components, hitems, bind_assoc, pure_bind]
  refine Succeeds.genRandsBatch fun mine hmine => Succeeds.exchange (Succeeds.lift_bind (fun p => rfl) ?_)
  exact Succeeds.pure (isReshare_zeroMasked (K := 16) hitems hmine)

variable {t : RingTy}

theorem reshareProducts_succeeds (n : Nat) (expr : Party → Nat → BitVec t.bits) :
    Succeeds (fun p => (reshareProducts t n (expr p) : Proc R _))
      (IsReshare n fun p => (List.range n).map (expr p)) := by
  simp only [reshareProducts, Proc.receiveRingVec, bind_assoc]
  refine Succeeds.genRandsBatch fun mine hmine =>
    Succeeds.exchange (Succeeds.lift_bind (fun p => intoVec_vec t _) ?_)
  refine Succeeds.pure (isReshare_masked mine ?_ ?_)
  · intro p
    rw [List.length_mapIdx, List.length_zipWith, hmine, hmine, Nat.min_self]
  · intro p i hi
    have hmine' : ∀ q, i < (mine q).length := fun q => hi.trans_eq (hmine q).symm
    rw [List.getD_eq_getElem _ _ (hmine' p), List.getD_eq_getElem _ _ (hmine' (p - 1)),
      List.getD_eq_getElem _ _ (by simp [hmine']), List.getD_eq_getElem _ _ (by simpa using hi),
      List.getElem_mapIdx, List.getElem_zipWith, List.getElem_map, List.getElem_range]

/-- The part of a party in the field `i % fields` of the element `i / fields` a control bit selects. -/
def muxExpr (fields : Nat) (controlBits : List (Share K)) (getField : Nat → Nat → Share K × Share K) (i : Nat) :
    BitVec K :=
  let c := controlBits.getD (i / fields) 0
  let (left, right) := getField (i / fields) (i % fields)
  let diff := left - right
  c.a * diff.a + c.b * diff.a + c.a * diff.b + right.a

theorem reshareMux_succeeds {n fields : Nat} (hfields : 0 < fields) {controlBits : Party → List (Share t.bits)}
    (hbits : ∀ p, n ≤ (controlBits p).length) (getField : Party → Nat → Nat → Share t.bits × Share t.bits) :
    Succeeds (fun p => (reshareMux t n fields (controlBits p) (getField p) : Proc R _))
      (IsReshare (n * fields) fun p =>
        (List.range (n * fields)).map (muxExpr fields (controlBits p) (getField p))) := by
  have hprog : ∀ p, (reshareMux t n fields (controlBits p) (getField p) : Proc R _) =
      reshareProducts t (n * fields) (muxExpr fields (controlBits p) (getField p)) := by
    intro p
    unfold reshareMux
    rw [if_neg hfields.ne', if_neg (Nat.not_lt.mpr (hbits p))]
    rfl
  simp only [hprog]
  exact reshareProducts_succeeds (n * fields) _

end AmpcCommon.Protocol
