import AmpcCommon.Protocol.Proofs.AdderProofs
import AmpcCommon.Protocol.Proofs.PermutationProofs

/-!
# The shuffle, proofs

The masks that are added before a permutation are taken off after it (`add_shuffled`), so the three permutations
of the roles compose. The roles are a rotation of the parties, as long as the role of no party wraps.
-/

namespace AmpcCommon.Protocol

variable {R : Type} [Rng R]

/-! ## The roles -/

section Roles

variable {K : Nat}

/-- A shared triple. -/
abbrev Triple (K : Nat) := Rep3 K × Rep3 K × Rep3 K

/-- What the party `p` holds of a shared triple. -/
def viewTriple (p : Party) (x : Triple K) : IdDistance K := (x.1.view p, ⟨x.2.1.view p, x.2.2.view p⟩)

/-- The secrets of a shared triple. -/
def openTriple (x : Triple K) : BitVec K × BitVec K × BitVec K := (x.1.sum, x.2.1.sum, x.2.2.sum)

@[simp] theorem length_flattenIdDistances (component : Share K → BitVec K) (distances : List (IdDistance K)) :
    (flattenIdDistances component distances).length = distances.length * 3 := by
  simp [flattenIdDistances, List.length_flatMap]

theorem flattenIdDistances_view (component : Share K → BitVec K) (p : Party) (xs : List (Triple K)) :
    flattenIdDistances component (xs.map (viewTriple p)) =
      (flatTriples xs).map fun x => component (x.view p) := by
  unfold flattenIdDistances flatTriples
  rw [List.flatMap_map, List.map_flatMap]
  rfl

theorem tuples3_eq (l : List (Share K)) : tuples3 l = (triples l).map fun x => (x.1, ⟨x.2.1, x.2.2⟩) := by
  fun_induction tuples3 l with
  | case1 a b c rest ih => exact congrArg (_ :: ·) ih
  | case2 l h =>
    match l, h with
    | [], _ => rfl
    | [_], _ => rfl
    | [_, _], _ => rfl
    | a :: b :: c :: rest, h => exact absurd rfl (h a b c rest)

/-- The result of a party that holds two components of the list `ys`. -/
theorem reconstruct_view (p : Party) (ys : List (Rep3 K)) :
    reconstructIdDistanceVector (ys.map fun y => y p) (ys.map fun y => y (p - 1)) =
      (triples ys).map (viewTriple p) := by
  unfold reconstructIdDistanceVector
  rw [fromAb_map, tuples3_eq]
  show (triples (ys.map (Rep3.view p))).map _ = _
  rw [triples_map, List.map_map]
  rfl

theorem length_reconstruct {a b : List (BitVec K)} {n : Nat} (ha : a.length = n * 3) (hb : b.length = n * 3) :
    (reconstructIdDistanceVector a b).length = n := by
  unfold reconstructIdDistanceVector
  rw [tuples3_eq, List.length_map, length_triples (n := n)]
  rw [length_fromAb, ha, hb, Nat.min_self]

theorem genRandsMany_eq (t : RingTy) (n : Nat) (prf : Prf R) :
    prf.genRandsMany t n = (((genMany t n prf.myPrf).1, (genMany t n prf.prevPrf).1),
      ⟨(genMany t n prf.myPrf).2, (genMany t n prf.prevPrf).2⟩) := by
  induction n generalizing prf with
  | zero => rfl
  | succ n ih =>
    rw [Prf.genRandsMany]
    simp only [ih, genMany]
    rfl

variable (t : RingTy) (fuel : Nat)

/-- What a party does, by its role. -/
def shuffleAt (q : Party) (distances : List (IdDistance t.bits)) (batchSize : Nat) :
    Proc R (List (IdDistance t.bits)) :=
  match q with
  | 0 => shuffleParty0 t fuel distances batchSize
  | 1 => shuffleParty1 t fuel distances batchSize
  | 2 => shuffleParty2 t fuel distances batchSize

/-- The results `r` of the shuffle of `count` batches: one permuted sharing, if the inputs are a sharing of the
triples `xs`. -/
def IsShuffle (C : Prop) (n : Nat) (move : List (BitVec K) → List (BitVec K)) (xs : List (Triple K))
    (r : Party → List (IdDistance K)) : Prop :=
  (∀ p, (r p).length = n) ∧ (C → ∃ ys : List (Rep3 K), ys.length = n * 3 ∧
    (∀ p, r p = (triples ys).map (viewTriple p)) ∧ ys.map Rep3.sum = move ((flatTriples xs).map Rep3.sum))

variable {t fuel} {C : Prop} {size count : Nat}

section Results

variable {pi01 pi12 pi20 : List Nat} {a b c z01 z12 z20 tA tB : List (BitVec K)}

theorem lt_of_mem_perm {perm : List Nat} (hperm : perm.Perm (List.range size)) : ∀ i ∈ perm, i < size := by
  intro i hi
  exact List.mem_range.mp (hperm.mem_iff.mp hi)

/-- What the second role holds before the last round. -/
def shuffleX (size : Nat) (pi01 pi12 pi20 : List Nat) (ab z01 z12 z20 : List (BitVec K)) : List (BitVec K) :=
  shuffled pi12 size (List.zipWith (· + ·) (shuffled pi20 size (List.zipWith (· + ·)
    (shuffled pi01 size (List.zipWith (· + ·) ab z01)) z20)) z12)

/-- What the third role holds before the last round. -/
def shuffleY (size : Nat) (pi01 pi12 pi20 : List Nat) (c z01 z12 z20 : List (BitVec K)) : List (BitVec K) :=
  shuffled pi12 size (List.zipWith (· - ·) (shuffled pi20 size (List.zipWith (· - ·)
    (shuffled pi01 size (List.zipWith (· - ·) c z01)) z20)) z12)

theorem length_moved (hsize : 0 < size) {perm : List Nat} (hperm : perm.Perm (List.range size))
    {α : Type} {data : List α} {n : Nat} (hn : n = count * (size * 3)) (hlen : data.length = n) :
    (shuffled perm size data).length = n := by
  rw [length_shuffled hsize (lt_of_mem_perm hperm) (hlen.trans hn), hperm.length_eq, List.length_range, hn]

theorem length_move (hsize : 0 < size) {perm : List Nat} (hperm : perm.Perm (List.range size)) {n : Nat}
    (hn : n = count * (size * 3)) (op : BitVec K → BitVec K → BitVec K) {x z : List (BitVec K)}
    (hx : x.length = n) (hz : z.length = n) : (shuffled perm size (List.zipWith op x z)).length = n :=
  length_moved hsize hperm hn (by rw [List.length_zipWith, hx, hz, Nat.min_self])

/-- A mask that is added before a permutation and one that is taken off are gone after it. -/
theorem add_shuffled (perm : List Nat) (size : Nat) {x y z : List (BitVec K)} {n : Nat} (hx : x.length = n)
    (hy : y.length = n) (hz : z.length = n) :
    List.zipWith (· + ·) (shuffled perm size (List.zipWith (· + ·) x z))
      (shuffled perm size (List.zipWith (· - ·) y z)) =
      shuffled perm size (List.zipWith (· + ·) x y) := by
  rw [shuffled_zipWith _ _ _ (by simp [hx, hy, hz])]
  congr 1
  refine List.ext_getElem (by simp [hx, hy, hz]) fun i hi hi' => ?_
  simp only [List.getElem_zipWith]
  ring

/-- The masks of both sides cancel, and the three permutations are left. -/
theorem add_shuffleX_shuffleY (hsize : 0 < size) (h01 : pi01.Perm (List.range size))
    (h20 : pi20.Perm (List.range size)) {n : Nat} (hn : n = count * (size * 3)) {ab : List (BitVec K)}
    (hab : ab.length = n) (hc : c.length = n) (hz01 : z01.length = n) (hz12 : z12.length = n)
    (hz20 : z20.length = n) :
    List.zipWith (· + ·) (shuffleX size pi01 pi12 pi20 ab z01 z12 z20)
      (shuffleY size pi01 pi12 pi20 c z01 z12 z20) =
      shuffled pi12 size (shuffled pi20 size (shuffled pi01 size (List.zipWith (· + ·) ab c))) := by
  have hx0 := length_move hsize h01 hn (· + ·) hab hz01
  have hy0 := length_move hsize h01 hn (· - ·) hc hz01
  have hx1 := length_move hsize h20 hn (· + ·) hx0 hz20
  have hy1 := length_move hsize h20 hn (· - ·) hy0 hz20
  unfold shuffleX shuffleY
  rw [add_shuffled _ _ hx1 hy1 hz12, add_shuffled _ _ hx0 hy0 hz20, add_shuffled _ _ hab hc hz01]

theorem isShuffle_results {n : Nat} {v : Party → List (IdDistance K)} {xs : List (Triple K)}
    (hC : C → ∀ p, v p = xs.map (viewTriple p)) {move : List (BitVec K) → List (BitVec K)}
    {x y : List (BitVec K)} (hx : x.length = n * 3) (hy : y.length = n * 3) (htA : tA.length = n * 3)
    (htB : tB.length = n * 3)
    (hsum : List.zipWith (· + ·) x y = move (List.zipWith (· + ·)
      (List.zipWith (· + ·) (flattenIdDistances Share.a (v 0)) (flattenIdDistances Share.b (v 0)))
      (flattenIdDistances Share.a (v 1)))) :
    IsShuffle C n move xs
      ![reconstructIdDistanceVector tB tA,
        reconstructIdDistanceVector
          (List.zipWith (· + ·) (List.zipWith (· - ·) x tB) (List.zipWith (· - ·) y tA)) tB,
        reconstructIdDistanceVector tA
          (List.zipWith (· + ·) (List.zipWith (· - ·) x tB) (List.zipWith (· - ·) y tA))] := by
  have hlen : (List.zipWith (· + ·) (List.zipWith (· - ·) x tB) (List.zipWith (· - ·) y tA)).length = n * 3 := by
    simp [hx, hy, htA, htB]
  refine ⟨fun p => ?_, fun h => ?_⟩
  · fin_cases p
    · exact length_reconstruct htB htA
    · exact length_reconstruct hlen htB
    · exact length_reconstruct htA hlen
  · -- the three components of the result, put together
    generalize hC' : List.zipWith (· + ·) (List.zipWith (· - ·) x tB) (List.zipWith (· - ·) y tA) = tC at hlen ⊢
    have hloc : ∀ p, ((![tB, tC, tA] : Party → List (BitVec K)) p).length = n * 3 := by
      intro p
      fin_cases p
      · exact htB
      · exact hlen
      · exact htA
    have hpart := map_joinParts hloc
    refine ⟨joinParts (n * 3) ![tB, tC, tA], length_joinParts _ _, fun p => ?_, ?_⟩
    · rw [← reconstruct_view, hpart, hpart]
      fin_cases p <;> rfl
    · have hview := hC h
      have hin : List.zipWith (· + ·)
          (List.zipWith (· + ·) (flattenIdDistances Share.a (v 0)) (flattenIdDistances Share.b (v 0)))
          (flattenIdDistances Share.a (v 1)) = (flatTriples xs).map Rep3.sum := by
        rw [hview 0, hview 1]
        simp only [flattenIdDistances_view, List.zipWith_map, List.zipWith_self]
        refine List.map_congr_left fun x _ => ?_
        show x 0 + x 2 + x 1 = x 0 + x 1 + x 2
        ac_rfl
      rw [← hin, ← hsum]
      have hmap : (joinParts (n * 3) ![tB, tC, tA]).map Rep3.sum =
          (List.range (n * 3)).map fun i => tB.getD i 0 + tC.getD i 0 + tA.getD i 0 := List.map_map
      rw [hmap]
      refine List.ext_getElem (by simp [hx, hy]) fun i hi hi' => ?_
      have hin : i < n * 3 := by simpa using hi
      rw [List.getElem_map, List.getElem_range, List.getD_eq_getElem _ _ (hin.trans_eq htB.symm),
        List.getD_eq_getElem _ _ (hin.trans_eq hlen.symm), List.getD_eq_getElem _ _ (hin.trans_eq htA.symm)]
      subst hC'
      simp only [List.getElem_zipWith]
      ring

end Results

omit [Rng R] in
theorem lift_zip {α : Type} {msg : String} {op : BitVec K → BitVec K → BitVec K} {x y : List (BitVec K)} {n : Nat}
    (hx : x.length = n) (hy : y.length = n) (k : List (BitVec K) → Proc R α) :
    (Proc.lift (vecZip msg op x y) >>= k) = k (List.zipWith op x y) := by
  rw [vecZip_eq_ok (hx.trans hy.symm), Proc.lift_ok, pure_bind]

omit [Rng R] in
/-- A vector is masked and moved. -/
theorem lift_move {α : Type} (hsize : 0 < size) {perm : List Nat} (hperm : ∀ i ∈ perm, i < size) {n : Nat}
    (hn : n = count * (size * 3)) {msg : String} {op : BitVec K → BitVec K → BitVec K} {x z : List (BitVec K)}
    (hx : x.length = n) (hz : z.length = n) (k : List (BitVec K) → Proc R α) :
    (Proc.lift (vecZip msg op x z) >>= fun y => Proc.lift (shuffleTriplets perm y size) >>= k) =
      k (shuffled perm size (List.zipWith op x z)) := by
  have hlen : (List.zipWith op x z).length = count * (size * 3) := by
    rw [List.length_zipWith, hx, hz, Nat.min_self, hn]
  rw [lift_zip hx hz, shuffleTriplets_eq hsize hperm hlen, Proc.lift_ok, pure_bind]

theorem shuffleAt_succeeds (hsize : 0 < size) (hlt : size < 2 ^ 32) {v : Party → List (IdDistance t.bits)}
    (hv : ∀ p, (v p).length = count * size) {xs : List (Triple t.bits)}
    (hC : C → ∀ p, v p = xs.map (viewTriple p)) {s0 s1 s2 s0' s1' s2' : R} {pi01 pi12 pi20 : List Nat}
    (h01 : drawPermutation fuel size s0 = some (pi01, s0')) (h12 : drawPermutation fuel size s1 = some (pi12, s1'))
    (h20 : drawPermutation fuel size s2 = some (pi20, s2')) :
    SucceedsFrom ![⟨s0, s2⟩, ⟨s1, s0⟩, ⟨s2, s1⟩] (fun q => (shuffleAt t fuel q (v q) size : Proc R _))
      (IsShuffle C (count * size)
        (fun d => shuffled pi12 size (shuffled pi20 size (shuffled pi01 size d))) xs) := by
  rw [party_eq_vec (fun q => shuffleAt t fuel q (v q) size)]
  show SucceedsFrom _ ![shuffleParty0 t fuel (v 0) size, shuffleParty1 t fuel (v 1) size,
    shuffleParty2 t fuel (v 2) size] _
  have hg0 : genPermutation fuel size ⟨s0, s2⟩ = .pure (.ok (pi01, pi20), ⟨s0', s2'⟩) := by
    rw [genPermutation_eq, h01, h20]
  have hg1 : genPermutation fuel size ⟨s1, s0⟩ = .pure (.ok (pi12, pi01), ⟨s1', s0'⟩) := by
    rw [genPermutation_eq, h12, h01]
  have hg2 : genPermutation fuel size ⟨s2, s1⟩ = .pure (.ok (pi20, pi12), ⟨s2', s1'⟩) := by
    rw [genPermutation_eq, h20, h12]
  have hthree : 3 * (count * size) = count * size * 3 := Nat.mul_comm _ _
  simp only [shuffleParty0, shuffleParty1, shuffleParty2, Nat.mod_eq_of_lt hlt, hv, length_flattenIdDistances,
    hthree]
  refine SucceedsFrom.local0 hg0 (SucceedsFrom.local1 hg1 (SucceedsFrom.local2 hg2 ?_))
  refine SucceedsFrom.draw0 (SucceedsFrom.draw1 (SucceedsFrom.draw2 ?_))
  have hp01 := drawPermutation_perm h01
  have hp12 := drawPermutation_perm h12
  have hp20 := drawPermutation_perm h20
  have hL : count * size * 3 = count * (size * 3) := Nat.mul_assoc _ _ _
  simp only [genRandsMany_eq, vecAdd, vecSub]
  generalize hn : count * size * 3 = n at *
  have hlen : ∀ (s : R), (genMany t n s).1.length = n := length_genMany t n
  have hflat : ∀ (component : Share t.bits → BitVec t.bits) p, (flattenIdDistances component (v p)).length = n := by
    intro component p
    rw [length_flattenIdDistances, hv, hn]
  have hab : (List.zipWith (· + ·) (flattenIdDistances Share.a (v 0)) (flattenIdDistances Share.b (v 0))).length =
      n := by
    rw [List.length_zipWith, hflat, hflat, Nat.min_self]
  -- the masked sums of the first role and the masked component of the second one
  have hx0 := length_move hsize hp01 hL (· + ·) hab (hlen s0')
  have hx1 := length_move hsize hp20 hL (· + ·) hx0 (hlen s2')
  have hx2 := length_move hsize hp12 hL (· + ·) hx1 (hlen s1')
  have hy0 := length_move hsize hp01 hL (· - ·) (hflat Share.a 1) (hlen s0')
  have hy1 := length_move hsize hp20 hL (· - ·) hy0 (hlen s2')
  have hy2 := length_move hsize hp12 hL (· - ·) hy1 (hlen s1')
  have hm01 := lt_of_mem_perm hp01
  have hm12 := lt_of_mem_perm hp12
  have hm20 := lt_of_mem_perm hp20
  rw [lift_zip (hflat _ 0) (hflat _ 0), lift_move hsize hm01 hL hab (hlen s0'),
    lift_move hsize hm20 hL hx0 (hlen s2'), lift_move hsize hm01 hL (hflat _ 1) (hlen s0')]
  refine SucceedsFrom.pass12 (SucceedsFrom.pass01 ?_)
  rw [lift_move hsize hm12 hL hx1 (hlen s1'), lift_move hsize hm20 hL hy0 (hlen s2'),
    lift_move hsize hm12 hL hy1 (hlen s1'), hx2, hy2]
  refine SucceedsFrom.draw0 (SucceedsFrom.draw1 (SucceedsFrom.draw2 ?_))
  simp only [genRandsMany_eq, Prf.prev, Prf.mine]
  have htB := hlen (genMany t n s0').2
  have htA := hlen (genMany t n s2').2
  rw [lift_zip hx2 htB, lift_zip hy2 htA]
  refine SucceedsFrom.swap12 ?_
  have hc1 := (List.length_zipWith (f := fun x y => x - y)).trans
    ((congrArg₂ min hx2 htB).trans (Nat.min_self n))
  have hc2 := (List.length_zipWith (f := fun x y => x - y)).trans
    ((congrArg₂ min hy2 htA).trans (Nat.min_self n))
  rw [lift_zip hc1 hc2, lift_zip hc1 hc2]
  refine SucceedsFrom.pure (lockstep_vec _ _ _) ?_
  subst hn
  exact isShuffle_results hC hx2 hy2 htA htB
    (add_shuffleX_shuffleY hsize hp01 hp20 hL hab (hflat _ 1) (hlen _) (hlen _) (hlen _))

/-- A shuffle does not depend on which party is the first. -/
theorem IsShuffle.rotate {n : Nat} {move : List (BitVec K) → List (BitVec K)} {xs : List (Triple K)}
    {r : Party → List (IdDistance K)} (e : Party)
    (h : IsShuffle C n move (xs.map fun x => (fun p => x.1 (p - e), fun p => x.2.1 (p - e), fun p => x.2.2 (p - e)))
      r) : IsShuffle C n move xs fun p => r (p + e) := by
  refine ⟨fun p => h.1 _, fun hC => ?_⟩
  obtain ⟨ys, hlen, hr, hsum⟩ := h.2 hC
  refine ⟨ys.map fun y p => y (p + e), by rw [List.length_map, hlen], fun p => ?_, ?_⟩
  · show r (p + e) = _
    rw [hr, triples_map, List.map_map]
    refine List.map_congr_left fun y _ => ?_
    simp only [Function.comp_apply, viewTriple, Rep3.view, sub_add_eq_add_sub]
  · have hys : (ys.map fun y p => y (p + e)).map Rep3.sum = ys.map Rep3.sum := by
      rw [List.map_map]
      exact List.map_congr_left fun y _ => Rep3.sum_rotate y e
    have hxs : (flatTriples (xs.map fun x =>
        ((fun p => x.1 (p - e)), (fun p => x.2.1 (p - e)), (fun p => x.2.2 (p - e))))).map Rep3.sum =
        (flatTriples xs).map Rep3.sum := by
      rw [flatTriples_map (fun (x : Rep3 K) p => x (p - e)), map_sum_rotate]
    rw [hys, hsum, hxs]

theorem u32Add_ok {overflowChecks : Bool} {x y : BitVec 32} (h : overflowChecks = true → x.toNat + y.toNat < 2 ^ 32) :
    u32Add overflowChecks x y = .ok (x + y) := by
  unfold u32Add
  split
  · rfl
  · rename_i hover
    rw [if_neg fun hchecks => hover (h hchecks)]

theorem u32Add_panics {x y : BitVec 32} (h : ¬ x.toNat + y.toNat < 2 ^ 32) :
    u32Add true x y = .panicked "attempt to add with overflow" := by
  rw [u32Add, if_neg h, if_pos rfl]

/-- The role of a party in the shuffle, when the sum does not panic. -/
theorem shuffleRole_of_fits {overflowChecks : Bool} {sid : BitVec 32}
    (h : overflowChecks = true → sid.toNat + 2 < 2 ^ 32) (p : Party) :
    (Session.mk p sid).shuffleRole overflowChecks = .ok ((sid + BitVec.ofNat 32 p.val).toNat % 3) := by
  have hsum : u32Add overflowChecks sid (BitVec.ofNat 32 p.val) = .ok (sid + BitVec.ofNat 32 p.val) := by
    refine u32Add_ok fun hchecks => ?_
    have hsid := h hchecks
    have hp := p.isLt
    rw [BitVec.toNat_ofNat, Nat.mod_eq_of_lt (show p.val < 2 ^ 32 by omega)]
    omega
  unfold Session.shuffleRole
  rw [hsum]
  rfl

/-- The role of a party in the shuffle is its index, rotated by the session, unless the sum overflows. -/
theorem shuffleRole_eq {sid : BitVec 32} (hsid : sid.toNat + 2 < 2 ^ 32) (overflowChecks : Bool) (p : Party) :
    (Session.mk p sid).shuffleRole overflowChecks = .ok (p + Fin.ofNat 3 sid.toNat).val := by
  have hp := p.isLt
  have hrole : (sid + BitVec.ofNat 32 p.val).toNat % 3 = (p + Fin.ofNat 3 sid.toNat).val := by
    show (sid + BitVec.ofNat 32 p.val).toNat % 3 = (p.val + sid.toNat % 3) % 3
    rw [BitVec.toNat_add, BitVec.toNat_ofNat, Nat.mod_eq_of_lt (show p.val < 2 ^ 32 by omega),
      Nat.mod_eq_of_lt (show sid.toNat + p.val < 2 ^ 32 by omega), Nat.add_mod_mod, Nat.add_comm]
  rw [shuffleRole_of_fits (fun _ => hsid), hrole]

/-- In a build with overflow checks the third party panics in the sessions with the two largest ids. -/
theorem shuffleRole_panics {sid : BitVec 32} (hsid : ¬ sid.toNat + 2 < 2 ^ 32) :
    (Session.mk 2 sid).shuffleRole true = .panicked "attempt to add with overflow" := by
  have hsum : u32Add true sid (BitVec.ofNat 32 2) = .panicked "attempt to add with overflow" := u32Add_panics hsid
  show (u32Add true sid (BitVec.ofNat 32 2) >>= fun sum => pure (sum.toNat % 3)) = _
  rw [hsum]
  rfl

/-- The check of the lengths passes. -/
theorem any_length_ne {α : Type} {first : List α} {rest : List (List α)}
    (hlen : ∀ batch ∈ first :: rest, batch.length = size) :
    ((first :: rest).any fun batch => batch.length != first.length) = false := by
  rw [List.any_eq_false]
  intro batch hbatch
  rw [hlen batch hbatch, hlen first List.mem_cons_self]
  simp

variable (fuel) in
/-- The program of a party with the role `q`, after the checks of its inputs. -/
theorem randomShuffleBatch_eq {overflowChecks : Bool} {s : Session} {q : Party}
    (hq : s.shuffleRole overflowChecks = .ok q.val) {distances : List (List (IdDistance t.bits))} (hne : distances ≠ [])
    (hlen : ∀ batch ∈ distances, batch.length = size) (hsize : 0 < size) :
    (randomShuffleBatch t overflowChecks fuel s distances : Proc R _) =
      (shuffleAt t fuel q distances.flatten size >>= fun flattenedResults =>
        pure (chunks size flattenedResults)) := by
  obtain ⟨first, rest, rfl⟩ := List.exists_cons_of_ne_nil hne
  have hfirst := hlen first List.mem_cons_self
  have hany := any_length_ne hlen
  rw [hfirst] at hany
  rw [randomShuffleBatch]
  simp only [hq, hfirst, hany, Bool.false_eq_true, if_false, Nat.pos_iff_ne_zero.mp hsize]
  fin_cases q <;> rfl

variable (fuel) in
/-- A party whose role overflows panics. -/
theorem randomShuffleBatch_of_panicked {overflowChecks : Bool} {s : Session} {m : String}
    (hrole : s.shuffleRole overflowChecks = .panicked m) {distances : List (List (IdDistance t.bits))}
    (hne : distances ≠ []) (hlen : ∀ batch ∈ distances, batch.length = size) :
    (randomShuffleBatch t overflowChecks fuel s distances : Proc R _) = Proc.lift (.panicked m) := by
  obtain ⟨first, rest, rfl⟩ := List.exists_cons_of_ne_nil hne
  have hany := any_length_ne hlen
  rw [randomShuffleBatch]
  simp only [hrole, hany, Bool.false_eq_true, if_false]
  rfl

theorem length_flatten_of_shape {α : Type} {l : List (List α)}
    (h : l.map List.length = List.replicate count size) : l.flatten.length = count * size := by
  rw [List.length_flatten, h, List.sum_replicate, smul_eq_mul]

theorem ne_nil_of_shape {α : Type} {l : List (List α)} (hcount : 0 < count)
    (h : l.map List.length = List.replicate count size) : l ≠ [] := by
  refine List.ne_nil_of_length_pos ?_
  rw [(isPlanes_of_map_length h).1]
  exact hcount

/-- The results `r` of the shuffle of the batches `xss`. -/
def IsShuffleBatch (C : Prop) (count size : Nat) (pi01 pi20 pi12 : List Nat) (xss : List (List (Triple K)))
    (r : Party → List (List (IdDistance K))) : Prop :=
  (∀ p, (r p).map List.length = List.replicate count size) ∧ (C → ∃ yss : List (List (Triple K)),
    (∀ p, r p = yss.map (List.map (viewTriple p))) ∧
      yss.map (List.map openTriple) = xss.map fun xs => permuted (composed pi01 pi20 pi12) (xs.map openTriple))

theorem map_length_chunks (hsize : 0 < size) {α : Type} {l : List α} (h : l.length = count * size) :
    (chunks size l).map List.length = List.replicate count size := by
  obtain ⟨batches, rfl, hcount, hb⟩ := exists_batches h
  rw [chunks_flatten hsize hb, List.map_congr_left hb, List.map_const', hcount]

theorem IsShuffle.isShuffleBatch (hsize : 0 < size) {pi01 pi20 pi12 : List Nat}
    (h01 : pi01.Perm (List.range size)) (h20 : pi20.Perm (List.range size)) (h12 : pi12.Perm (List.range size))
    {xss : List (List (Triple K))} (hxss : ∀ xs ∈ xss, xs.length = size) {r : Party → List (IdDistance K)}
    (h : IsShuffle C (count * size)
      (fun d => shuffled pi12 size (shuffled pi20 size (shuffled pi01 size d))) xss.flatten r) :
    IsShuffleBatch C count size pi01 pi20 pi12 xss fun p => chunks size (r p) := by
  refine ⟨fun p => map_length_chunks hsize (h.1 p), fun hC => ?_⟩
  obtain ⟨ys, hlen, hr, hsum⟩ := h.2 hC
  refine ⟨chunks size (triples ys), fun p => ?_, ?_⟩
  · show chunks size (r p) = _
    rw [hr p, chunks_map]
  · have hpermuted : ∀ {perm : List Nat}, perm.Perm (List.range size) →
        ∀ bs : List (List (BitVec K × BitVec K × BitVec K)), ∀ b ∈ bs.map (permuted perm), b.length = size := by
      intro perm hp bs b hb
      obtain ⟨x, -, rfl⟩ := List.mem_map.mp hb
      unfold permuted
      rw [List.length_map, hp.length_eq, List.length_range]
    have hopen : ∀ b ∈ xss.map (List.map openTriple), b.length = size := by
      intro b hb
      obtain ⟨x, hx, rfl⟩ := List.mem_map.mp hb
      rw [List.length_map, hxss x hx]
    have hflat : (flatTriples xss.flatten).map Rep3.sum = flatTriples (xss.map (List.map openTriple)).flatten := by
      rw [← List.map_flatten]
      exact (flatTriples_map Rep3.sum xss.flatten).symm
    rw [hflat] at hsum
    dsimp only at hsum
    rw [shuffled_flatTriples hsize (lt_of_mem_perm h01) hopen,
      shuffled_flatTriples hsize (lt_of_mem_perm h20) (hpermuted h01 _),
      shuffled_flatTriples hsize (lt_of_mem_perm h12) (hpermuted h20 _)] at hsum
    have htriples := congrArg triples hsum
    rw [triples_flatTriples, triples_map] at htriples
    have hchunks := congrArg (chunks size) htriples
    rw [chunks_flatten hsize (hpermuted h12 _), chunks_map] at hchunks
    refine hchunks.trans ?_
    rw [List.map_map, List.map_map, List.map_map]
    refine List.map_congr_left fun xs _ => ?_
    exact permuted_permuted (h01.length_eq.trans List.length_range) h20 (lt_of_mem_perm h12) _

/-- The parties' programs, for the streams the permutations are drawn from. -/
theorem randomShuffleBatch_succeeds (overflowChecks : Bool) {sid : BitVec 32} (hsid : sid.toNat + 2 < 2 ^ 32)
    (hcount : 0 < count) (hsize : 0 < size) (hlt : size < 2 ^ 32) {v : Party → List (List (IdDistance t.bits))}
    (hv : ∀ p, (v p).map List.length = List.replicate count size) {xss : List (List (Triple t.bits))}
    (hxss : ∀ xs ∈ xss, xs.length = size) (hC : C → ∀ p, v p = xss.map (List.map (viewTriple p)))
    {σ : Party → Prf R} (hσ : Lockstep σ) {pi01 pi12 pi20 : List Nat} {s0 s1 s2 : R}
    (h01 : drawPermutation fuel size (σ (0 - Fin.ofNat 3 sid.toNat)).myPrf = some (pi01, s0))
    (h12 : drawPermutation fuel size (σ (1 - Fin.ofNat 3 sid.toNat)).myPrf = some (pi12, s1))
    (h20 : drawPermutation fuel size (σ (2 - Fin.ofNat 3 sid.toNat)).myPrf = some (pi20, s2)) :
    SucceedsFrom σ (fun p => (randomShuffleBatch t overflowChecks fuel ⟨p, sid⟩ (v p) : Proc R _))
      (IsShuffleBatch C count size pi01 pi20 pi12 xss) := by
  have hbatch : ∀ p, ∀ batch ∈ v p, batch.length = size := fun p =>
    (isPlanes_of_map_length (hv p)).2
  have hvne := fun p => ne_nil_of_shape hcount (hv p)
  have hprog : ∀ p, (randomShuffleBatch t overflowChecks fuel ⟨p, sid⟩ (v p) : Proc R _) =
      (shuffleAt t fuel (p + Fin.ofNat 3 sid.toNat) (v p).flatten size >>= fun flattenedResults =>
        pure (chunks size flattenedResults)) := by
    intro p
    exact randomShuffleBatch_eq fuel (shuffleRole_eq hsid overflowChecks p) (hvne p) (hbatch p) hsize
  simp only [hprog]
  generalize Fin.ofNat 3 sid.toNat = e at *
  have hlock : Lockstep fun p => σ (p - e) := by
    intro p
    show (σ (p - e)).myPrf = (σ (p + 1 - e)).prevPrf
    rw [hσ, sub_add_eq_add_sub]
  have hlen : ∀ q, (v (q - e)).flatten.length = count * size := fun q => length_flatten_of_shape (hv _)
  have hview : C → ∀ q, (v (q - e)).flatten = (xss.flatten.map fun x =>
      ((fun p => x.1 (p - e), fun p => x.2.1 (p - e), fun p => x.2.2 (p - e)) : Triple t.bits)).map
        (viewTriple q) := by
    intro h q
    rw [hC h, ← List.map_flatten, List.map_map]
    refine List.map_congr_left fun x _ => ?_
    simp only [Function.comp_apply, viewTriple, Rep3.view, sub_right_comm q e 1]
  have hroles := shuffleAt_succeeds (R := R) hsize hlt hlen hview h01 h12 h20
  rw [← hlock.eq_vec] at hroles
  have hrot := SucceedsFrom.rotate e (hroles.mono fun r => IsShuffle.rotate e)
  simp only [add_sub_cancel_right] at hrot
  refine hrot.bind fun r hr => Succeeds.pure ?_
  exact hr.isShuffleBatch hsize (drawPermutation_perm h01) (drawPermutation_perm h20)
    (drawPermutation_perm h12) hxss

/-! ## Parties that do not return -/

section Waiting

variable {β : Type} (fuel)

theorem genPermutation_cases (size : Nat) (prf : Prf R) :
    genPermutation fuel size prf = .spin ∨ ∃ permA permB prf',
      genPermutation fuel size prf = .pure (.ok (permA, permB), prf') ∧ permA.Perm (List.range size) ∧
        permB.Perm (List.range size) := by
  rw [genPermutation_eq]
  cases hA : drawPermutation fuel size prf.myPrf with
  | none => exact Or.inl rfl
  | some a =>
    cases hB : drawPermutation fuel size prf.prevPrf with
    | none => exact Or.inl rfl
    | some b =>
      obtain ⟨permA, rngA⟩ := a
      obtain ⟨permB, rngB⟩ := b
      exact Or.inr ⟨permA, permB, _, rfl, drawPermutation_perm hA, drawPermutation_perm hB⟩

omit [Rng R] in
/-- A local computation that returns is left out. -/
theorem bind_of_pure {γ : Type} {x : Proc R γ} {k : γ → Proc R β} {prf prf' : Prf R} {v : γ}
    (h : x prf = .pure (.ok v, prf')) : (x >>= k) prf = k v prf' := by
  rw [Proc.bind_apply, h]
  rfl

omit [Rng R] in
theorem bind_of_spin {γ : Type} {x : Proc R γ} {k : γ → Proc R β} {prf : Prf R} (h : x prf = .spin) :
    (x >>= k) prf = .spin := by
  rw [Proc.bind_apply, h]
  rfl

omit [Rng R] in
theorem draw_bind_apply {γ : Type} (f : Prf R → γ × Prf R) (k : γ → Proc R β) (prf : Prf R) :
    (Proc.draw f >>= k) prf = k (f prf).1 (f prf).2 := rfl

omit [Rng R] in
theorem send_bind_apply (v : List (BitVec t.bits)) (k : Unit → Proc R β) (prf : Prf R) :
    (Proc.sendRingVecNext t v >>= k) prf = .send .next (ringVecMsg t v) (k () prf) := rfl

omit [Rng R] in
theorem receive_bind_apply (d : Dir) (k : List (BitVec t.bits) → Proc R β) (prf : Prf R) :
    (Proc.receiveRingVec t d >>= k) prf =
      .recv d fun m => ((Proc.lift (intoVec t m) : Proc R _) >>= k) prf := rfl

theorem length_flat {distances : List (IdDistance t.bits)} (hd : distances.length = count * size)
    (component : Share t.bits → BitVec t.bits) :
    (flattenIdDistances component distances).length = count * (size * 3) := by
  rw [length_flattenIdDistances, hd, Nat.mul_assoc]

variable (hsize : 0 < size) {distances : List (IdDistance t.bits)} (hd : distances.length = count * size)
  (f : List (IdDistance t.bits) → β) (prf : Prf R)

include hsize hd

/-- The first role sends one message and returns. -/
theorem shuffleParty0_sends (hlt : size < 2 ^ 32) :
    (shuffleParty0 t fuel distances size >>= fun r => pure (f r)) prf = .spin ∨
      ∃ (x1 : List (BitVec t.bits)) (o : Outcome β × Prf R), x1.length = count * (size * 3) ∧
        (shuffleParty0 t fuel distances size >>= fun r => pure (f r)) prf =
          .send .next (ringVecMsg t x1) (.pure o) := by
  unfold shuffleParty0
  simp only [bind_assoc, Nat.mod_eq_of_lt hlt]
  rcases genPermutation_cases fuel size prf with hspin | ⟨pi01, pi20, prf', hgen, h01, h20⟩
  · exact Or.inl (bind_of_spin hspin)
  · have ha := length_flat hd Share.a
    have hb := length_flat hd Share.b
    have hab := (List.length_zipWith (f := fun x y => x + y)).trans ((congrArg₂ min ha hb).trans (Nat.min_self _))
    have hx0 := length_move hsize h01 rfl (· + ·) hab (length_genMany t _ prf'.myPrf)
    have hx1 := length_move hsize h20 rfl (· + ·) hx0 (length_genMany t _ prf'.prevPrf)
    right
    rw [bind_of_pure hgen, draw_bind_apply]
    simp only [genRandsMany_eq, vecAdd, ha]
    rw [lift_zip ha hb, lift_move hsize (lt_of_mem_perm h01) rfl hab (length_genMany t _ _),
      lift_move hsize (lt_of_mem_perm h20) rfl hx0 (length_genMany t _ _)]
    exact ⟨_, _, hx1, rfl⟩

/-- A batch with `2 ^ 32` triples or more is cut by the permutation, and the first role fails. -/
theorem shuffleParty0_fails (hcount : 0 < count) (hge : 2 ^ 32 ≤ size) :
    (shuffleParty0 t fuel distances size >>= fun r => pure (f r)) prf = .spin ∨
      ∃ e prf', (shuffleParty0 t fuel distances size >>= fun r => pure (f r)) prf = .pure (.error e, prf') := by
  unfold shuffleParty0
  simp only [bind_assoc]
  rcases genPermutation_cases fuel (size % 2 ^ 32) prf with hspin | ⟨pi01, pi20, prf', hgen, h01, -⟩
  · exact Or.inl (bind_of_spin hspin)
  · have ha := length_flat hd Share.a
    have hb := length_flat hd Share.b
    have hab := (List.length_zipWith (f := fun x y => x + y)).trans ((congrArg₂ min ha hb).trans (Nat.min_self _))
    have hmod : size % 2 ^ 32 < size := (Nat.mod_lt size (by decide)).trans_le hge
    have h01lt : ∀ i ∈ pi01, i < size := fun i hi => (lt_of_mem_perm h01 i hi).trans hmod
    have hz := length_genMany t (count * (size * 3)) prf'.myPrf
    have habz : (List.zipWith (· + ·) (List.zipWith (· + ·) (flattenIdDistances Share.a distances)
        (flattenIdDistances Share.b distances)) (genMany t (count * (size * 3)) prf'.myPrf).1).length =
        count * (size * 3) := by
      rw [List.length_zipWith, hab, hz, Nat.min_self]
    have hx0 := length_shuffled hsize h01lt habz
    rw [h01.length_eq, List.length_range] at hx0
    have hne : count * (size % 2 ^ 32 * 3) ≠ count * (size * 3) := by
      intro heq
      have := Nat.eq_of_mul_eq_mul_left hcount heq
      omega
    right
    rw [bind_of_pure hgen, draw_bind_apply]
    simp only [genRandsMany_eq, vecAdd, ha]
    rw [lift_zip ha hb, lift_move hsize h01lt rfl hab hz, vecZip_eq_bail (by rw [hx0, length_genMany]; exact hne)]
    exact ⟨_, _, rfl⟩

/-- The second role first waits for the previous party, and then for the next one. -/
theorem shuffleParty1_waits :
    (shuffleParty1 t fuel distances size >>= fun r => pure (f r)) prf = .spin ∨
      ∃ y0 k, (shuffleParty1 t fuel distances size >>= fun r => pure (f r)) prf =
          .send .next y0 (.recv .prev k) ∧
        (size < 2 ^ 32 → ∀ x1 : List (BitVec t.bits), x1.length = count * (size * 3) →
          ∃ m k', k (ringVecMsg t x1) = .send .next m (.recv .next k')) := by
  unfold shuffleParty1
  simp only [bind_assoc]
  rcases genPermutation_cases fuel (size % 2 ^ 32) prf with hspin | ⟨pi12, pi01, prf', hgen, h12, h01⟩
  · exact Or.inl (bind_of_spin hspin)
  · have ha := length_flat hd Share.a
    have hle : size % 2 ^ 32 ≤ size := Nat.mod_le _ _
    have h01lt : ∀ i ∈ pi01, i < size := fun i hi => (lt_of_mem_perm h01 i hi).trans_le hle
    have hz := length_genMany t (count * (size * 3)) prf'.prevPrf
    right
    rw [bind_of_pure hgen, draw_bind_apply]
    simp only [genRandsMany_eq, vecAdd, vecSub, ha]
    rw [lift_move hsize h01lt rfl ha hz, send_bind_apply, receive_bind_apply]
    refine ⟨_, _, rfl, fun hlt x1 hx1 => ?_⟩
    rw [Nat.mod_eq_of_lt hlt] at h12
    have hz12 := length_genMany t (count * (size * 3)) prf'.myPrf
    have hx2 := length_move hsize h12 rfl (· + ·) hx1 hz12
    rw [intoVec_ringVecMsg, Proc.lift_ok, pure_bind, lift_move hsize (lt_of_mem_perm h12) rfl hx1 hz12,
      draw_bind_apply, hx2]
    simp only [Prf.prev]
    rw [lift_zip hx2 (length_genMany t _ _), send_bind_apply, receive_bind_apply]
    exact ⟨_, _, rfl⟩

/-- The third role waits twice for the previous party. -/
theorem shuffleParty2_waits :
    (shuffleParty2 t fuel distances size >>= fun r => pure (f r)) prf = .spin ∨
      ∃ k, (shuffleParty2 t fuel distances size >>= fun r => pure (f r)) prf = .recv .prev k ∧
        (size < 2 ^ 32 → ∀ y0 : List (BitVec t.bits), y0.length = count * (size * 3) →
          ∃ m k', k (ringVecMsg t y0) = .send .prev m (.recv .prev k')) := by
  unfold shuffleParty2
  simp only [bind_assoc]
  rcases genPermutation_cases fuel (size % 2 ^ 32) prf with hspin | ⟨pi20, pi12, prf', hgen, h20, h12⟩
  · exact Or.inl (bind_of_spin hspin)
  · right
    have hthree : 3 * (count * size) = count * (size * 3) := by ring
    rw [bind_of_pure hgen, draw_bind_apply]
    simp only [genRandsMany_eq, vecSub, hd, hthree]
    rw [receive_bind_apply]
    refine ⟨_, rfl, fun hlt y0 hy0 => ?_⟩
    rw [Nat.mod_eq_of_lt hlt] at h12 h20
    have hz20 := length_genMany t (count * (size * 3)) prf'.myPrf
    have hz12 := length_genMany t (count * (size * 3)) prf'.prevPrf
    have hy1 := length_move hsize h20 rfl (· - ·) hy0 hz20
    have hy2 := length_move hsize h12 rfl (· - ·) hy1 hz12
    rw [intoVec_ringVecMsg, Proc.lift_ok, pure_bind, lift_move hsize (lt_of_mem_perm h20) rfl hy0 hz20,
      lift_move hsize (lt_of_mem_perm h12) rfl hy1 hz12, draw_bind_apply, hy2]
    simp only [Prf.mine]
    rw [lift_zip hy2 (length_genMany t _ _)]
    exact ⟨_, _, rfl⟩

omit hsize hd

/-- The roles of a session whose identifier is one of the two largest, without overflow checks: the sum wraps, and the
roles are not a rotation. -/
theorem shuffleRole_wraps {sid : BitVec 32} (hsid : ¬ sid.toNat + 2 < 2 ^ 32) :
    (∀ p, (Session.mk p sid).shuffleRole false = .ok ((![2, 0, 0] : Party → Party) p).val) ∨
      ∀ p, (Session.mk p sid).shuffleRole false = .ok ((![0, 0, 1] : Party → Party) p).val := by
  have hlt := sid.isLt
  rcases (show sid.toNat = 2 ^ 32 - 2 ∨ sid.toNat = 2 ^ 32 - 1 by omega) with h | h
  · left
    have hsid : sid = BitVec.ofNat 32 (2 ^ 32 - 2) := BitVec.eq_of_toNat_eq (h.trans (by decide))
    subst hsid
    intro p
    fin_cases p <;> rfl
  · right
    have hsid : sid = BitVec.ofNat 32 (2 ^ 32 - 1) := BitVec.eq_of_toNat_eq (h.trans (by decide))
    subst hsid
    intro p
    fin_cases p <;> rfl

theorem nextParty_ne (p : Party) : nextParty p ≠ p := by
  rw [nextParty_apply]
  revert p
  decide

/-- A session whose roles wrap does not return, without overflow checks. -/
theorem randomShuffleBatch_wraps {sid : BitVec 32} (hsid : ¬ sid.toNat + 2 < 2 ^ 32) (hcount : 0 < count)
    (hsize : 0 < size) (hlt : size < 2 ^ 32) {v : Party → List (List (IdDistance t.bits))}
    (hv : ∀ p, (v p).map List.length = List.replicate count size) (σ : Party → Prf R) :
    Network.NeverDone nextParty
      (Network.start fun p => (randomShuffleBatch t false fuel ⟨p, sid⟩ (v p) : Proc R _) (σ p)) := by
  have hplanes := fun p => isPlanes_of_map_length (hv p)
  have hvne := fun p => ne_nil_of_shape hcount (hv p)
  have hd := fun p => length_flatten_of_shape (hv p)
  rcases shuffleRole_wraps hsid with hrole | hrole
  · -- the first party waits twice for the third one, which sends once
    have hprog := fun p => randomShuffleBatch_eq fuel (R := R) (hrole p) (hvne p) (hplanes p).2 hsize
    simp only [hprog]
    rcases shuffleParty2_waits fuel hsize (hd 0) (chunks size) (σ 0) with hspin | ⟨k, h0, hk⟩
    · exact Network.neverDone_of_spin (p := 0) hspin
    · rcases shuffleParty0_sends fuel hsize (hd 2) (chunks size) (σ 2) hlt with
        hspin | ⟨x1, o, hx1, h2⟩
      · exact Network.neverDone_of_spin (p := 2) hspin
      · obtain ⟨m, k', hk'⟩ := hk hlt x1 hx1
        refine .of_reaches (Network.reaches_pass (p := 2) (nextParty_ne 2) h2 h0) ?_
        refine Network.Starved.neverDone (p := 0) (d := .prev) nextParty_ne ⟨?_, ?_, rfl⟩
        · show Network.Blocked .prev (k (ringVecMsg t x1))
          rw [hk']
          exact Or.inl rfl
        · trivial
  · -- the third party waits for the first one, which does not send to it
    have hprog := fun p => randomShuffleBatch_eq fuel (R := R) (hrole p) (hvne p) (hplanes p).2 hsize
    simp only [hprog]
    rcases shuffleParty1_waits fuel hsize (hd 2) (chunks size) (σ 2) with hspin | ⟨y0, k, h2, hk⟩
    · exact Network.neverDone_of_spin (p := 2) hspin
    · rcases shuffleParty0_sends fuel hsize (hd 1) (chunks size) (σ 1) hlt with
        hspin | ⟨x1, o, hx1, h1⟩
      · exact Network.neverDone_of_spin (p := 1) hspin
      · rcases shuffleParty0_sends fuel hsize (hd 0) (chunks size) (σ 0) hlt with
          hspin | ⟨x1', o', -, h0⟩
        · exact Network.neverDone_of_spin (p := 0) hspin
        · obtain ⟨m, k', hk'⟩ := hk hlt x1 hx1
          refine .of_reaches (Network.reaches_relay (p := 1) nextParty_ne h1 h2) ?_
          refine Network.Starved.neverDone (p := 2) (d := .next) nextParty_ne ⟨?_, ?_, rfl⟩
          · show Network.Blocked .next (k (ringVecMsg t x1))
            rw [hk']
            exact Or.inl rfl
          · show Network.Silent .prev ((shuffleParty0 t fuel (v 0).flatten size >>= fun r =>
              (pure (chunks size r) : Proc R _)) (σ 0))
            rw [h0]
            exact ⟨by decide, trivial⟩

/-- In every session whose roles do not panic there is a party that waits for the first role. -/
theorem exists_waiting_role {overflowChecks : Bool} {sid : BitVec 32}
    (hbuild : overflowChecks = true → sid.toNat + 2 < 2 ^ 32) :
    ∃ p : Party, ((Session.mk p sid).shuffleRole overflowChecks = .ok 1 ∨
        (Session.mk p sid).shuffleRole overflowChecks = .ok 2) ∧
      (Session.mk (p - 1) sid).shuffleRole overflowChecks = .ok 0 := by
  by_cases hsid : sid.toNat + 2 < 2 ^ 32
  · refine ⟨1 - Fin.ofNat 3 sid.toNat, Or.inl ?_, ?_⟩
    · rw [shuffleRole_eq hsid, sub_add_cancel]
      rfl
    · rw [shuffleRole_eq hsid, sub_right_comm, sub_add_cancel]
      rfl
  · obtain rfl : overflowChecks = false := Bool.eq_false_iff.mpr fun hchecks => hsid (hbuild hchecks)
    rcases shuffleRole_wraps hsid with hrole | hrole
    · exact ⟨0, Or.inr (hrole 0), hrole 2⟩
    · exact ⟨2, Or.inl (hrole 2), hrole 1⟩

/-- Batches with `2 ^ 32` triples or more are not shuffled. -/
theorem randomShuffleBatch_overflows {overflowChecks : Bool} {sid : BitVec 32}
    (hbuild : overflowChecks = true → sid.toNat + 2 < 2 ^ 32) (hcount : 0 < count) (hge : 2 ^ 32 ≤ size)
    {v : Party → List (List (IdDistance t.bits))} (hv : ∀ p, (v p).map List.length = List.replicate count size)
    (σ : Party → Prf R) :
    Network.NeverDone nextParty
      (Network.start fun p => (randomShuffleBatch t overflowChecks fuel ⟨p, sid⟩ (v p) : Proc R _) (σ p)) := by
  have hsize : 0 < size := by omega
  have hplanes := fun p => isPlanes_of_map_length (hv p)
  have hvne := fun p => ne_nil_of_shape hcount (hv p)
  have hd := fun p => length_flatten_of_shape (hv p)
  obtain ⟨p, hp, hprev⟩ := exists_waiting_role hbuild
  refine Network.Starved.neverDone (p := p) (d := .prev) nextParty_ne ⟨?_, ?_, rfl⟩
  · show Network.Blocked .prev ((randomShuffleBatch t overflowChecks fuel ⟨p, sid⟩ (v p) : Proc R _) (σ p))
    rcases hp with hp | hp
    · rw [randomShuffleBatch_eq fuel (q := 1) hp (hvne p) (hplanes p).2 hsize]
      rcases shuffleParty1_waits fuel hsize (hd p) (chunks size) (σ p) with hspin | ⟨y0, k, hk, -⟩
      · exact (congrArg (Network.Blocked .prev) hspin).mpr trivial
      · exact (congrArg (Network.Blocked .prev) hk).mpr (Or.inl rfl)
    · rw [randomShuffleBatch_eq fuel (q := 2) hp (hvne p) (hplanes p).2 hsize]
      rcases shuffleParty2_waits fuel hsize (hd p) (chunks size) (σ p) with hspin | ⟨k, hk, -⟩
      · exact (congrArg (Network.Blocked .prev) hspin).mpr trivial
      · exact (congrArg (Network.Blocked .prev) hk).mpr (Or.inl rfl)
  · have hpeer : Network.peer nextParty p .prev = p - 1 := nextParty_symm_apply p
    rw [hpeer]
    show Network.Silent .next
      ((randomShuffleBatch t overflowChecks fuel ⟨p - 1, sid⟩ (v (p - 1)) : Proc R _) (σ (p - 1)))
    rw [randomShuffleBatch_eq fuel (q := 0) hprev (hvne _) (hplanes _).2 hsize]
    rcases shuffleParty0_fails fuel hsize (hd (p - 1)) (chunks size) (σ (p - 1)) hcount hge with
      hspin | ⟨e, prf', hfail⟩
    · exact (congrArg (Network.Silent .next) hspin).mpr trivial
    · exact (congrArg (Network.Silent .next) hfail).mpr trivial

/-- In a build with overflow checks a session whose id is one of the two largest does not answer everywhere: the third
party panics. -/
theorem randomShuffleBatch_not_answers {sid : BitVec 32} (hsid : ¬ sid.toNat + 2 < 2 ^ 32) (hcount : 0 < count)
    {v : Party → List (List (IdDistance t.bits))} (hv : ∀ p, (v p).map List.length = List.replicate count size)
    (σ : Party → Prf R) :
    ¬ Network.Answers nextParty (fun p => (randomShuffleBatch t true fuel ⟨p, sid⟩ (v p) : Proc R _) (σ p))
      fun o => o.1.Returns := by
  have hpanic := randomShuffleBatch_of_panicked fuel (R := R) (shuffleRole_panics hsid)
    (ne_nil_of_shape hcount (hv 2)) (isPlanes_of_map_length (hv 2)).2
  exact Network.not_answers_of_pure (p := 2) (congrFun hpanic (σ 2)) id

end Waiting

/-! ## The shuffle -/

/-- The shuffle of the batches `xss` is a hidden permutation: with enough fuel for the sampling of the
permutations, whatever the order of the steps is, all parties return what they hold of one list of batches, and
these are the batches of `xss`, permuted by the composition of the three permutations drawn. -/
def ShufflesCorrectly (overflowChecks : Bool) (t : RingTy) (sid : BitVec 32) (n : Nat)
    (xss : List (List (Triple t.bits))) (σ : Party → Prf R) : Prop :=
  ∃ F, ∀ fuel, F ≤ fuel → ∃ (e : Party) (pi01 pi12 pi20 : List Nat),
    (Session.mk e sid).shuffleRole overflowChecks = .ok 0 ∧
    (drawPermutation fuel n (σ e).myPrf).map Prod.fst = some pi01 ∧
    (drawPermutation fuel n (σ (e + 1)).myPrf).map Prod.fst = some pi12 ∧
    (drawPermutation fuel n (σ (e + 2)).myPrf).map Prod.fst = some pi20 ∧
    (composed pi01 pi20 pi12).Perm (List.range n) ∧
    Network.Settles nextParty
      (fun p => (randomShuffleBatch t overflowChecks fuel ⟨p, sid⟩ (xss.map (List.map (viewTriple p))) : Proc R _)
        (σ p))
      fun o => ∃ yss : List (List (Triple t.bits)),
        (∀ p, (o p).1 = .ok (yss.map (List.map (viewTriple p)))) ∧
        yss.map (List.map openTriple) =
          xss.map fun xs => permuted (composed pi01 pi20 pi12) (xs.map openTriple)

section Claim

variable {sid : BitVec 32} {n : Nat} {xss : List (List (Triple t.bits))} {σ : Party → Prf R}

theorem map_length_view (hxss : ∀ xs ∈ xss, xs.length = n) (p : Party) :
    (xss.map (List.map (viewTriple p))).map List.length = List.replicate xss.length n := by
  rw [List.map_map, ← List.map_const', List.map_congr_left]
  intro xs hxs
  show (xs.map (viewTriple p)).length = n
  rw [List.length_map, hxss xs hxs]

theorem shufflesCorrectly_of_lt (hends : SamplingEnds R) (overflowChecks : Bool) (hne : xss ≠ []) (hn : 0 < n)
    (hxss : ∀ xs ∈ xss, xs.length = n) (hσ : Lockstep σ) (hsid : sid.toNat + 2 < 2 ^ 32) (hlt : n < 2 ^ 32) :
    ShufflesCorrectly overflowChecks t sid n xss σ := by
  choose F hF using fun p => exists_fuel_drawPermutation hends hlt (σ p).myPrf
  generalize he : (0 : Party) - Fin.ofNat 3 sid.toNat = e
  refine ⟨max (F e) (max (F (e + 1)) (F (e + 2))), fun fuel hfuel => ?_⟩
  obtain ⟨⟨pi01, s0⟩, h01⟩ := Option.isSome_iff_exists.mp (hF e fuel (le_of_max_le_left hfuel))
  obtain ⟨⟨pi12, s1⟩, h12⟩ := Option.isSome_iff_exists.mp
    (hF (e + 1) fuel (le_of_max_le_left (le_of_max_le_right hfuel)))
  obtain ⟨⟨pi20, s2⟩, h20⟩ := Option.isSome_iff_exists.mp
    (hF (e + 2) fuel (le_of_max_le_right (le_of_max_le_right hfuel)))
  have hperm := composed_perm (drawPermutation_perm h01) (drawPermutation_perm h20) (drawPermutation_perm h12)
  have hrole : (Session.mk e sid).shuffleRole overflowChecks = .ok 0 := by
    rw [shuffleRole_eq hsid, ← he, sub_add_cancel]
    rfl
  refine ⟨e, pi01, pi12, pi20, hrole, by rw [h01]; rfl, by rw [h12]; rfl, by rw [h20]; rfl, hperm, ?_⟩
  have he1 : (1 : Party) - Fin.ofNat 3 sid.toNat = e + 1 := by
    rw [← he, sub_add_eq_add_sub, zero_add]
  have he2 : (2 : Party) - Fin.ofNat 3 sid.toNat = e + 2 := by
    rw [← he, sub_add_eq_add_sub, zero_add]
  rw [← he] at h01
  rw [← he1] at h12
  rw [← he2] at h20
  obtain ⟨r, σ', hjoint, -, hr⟩ := randomShuffleBatch_succeeds (C := True) overflowChecks hsid
    (List.length_pos_iff.mpr hne) hn hlt (map_length_view hxss) hxss (fun _ p => rfl) hσ h01 h12 h20
  obtain ⟨yss, hview, hopen⟩ := hr.2 trivial
  exact hjoint.settles ⟨yss, fun p => congrArg Except.ok (hview p), hopen⟩

theorem not_shufflesCorrectly {overflowChecks : Bool} (hne : xss ≠ []) (hn : 0 < n) (hxss : ∀ xs ∈ xss, xs.length = n)
    (h : ¬ (sid.toNat + 2 < 2 ^ 32 ∧ n < 2 ^ 32)) : ¬ ShufflesCorrectly overflowChecks t sid n xss σ := by
  rintro ⟨F, hF⟩
  obtain ⟨_, _, _, _, -, -, -, -, -, hsettles⟩ := hF F le_rfl
  by_cases hbuild : overflowChecks = true → sid.toNat + 2 < 2 ^ 32
  · obtain ⟨r, hcompletes, -⟩ := hsettles.completes
    apply hcompletes.not_neverDone
    by_cases hlt : n < 2 ^ 32
    · obtain rfl : overflowChecks = false := Bool.eq_false_iff.mpr fun hchecks => h ⟨hbuild hchecks, hlt⟩
      exact randomShuffleBatch_wraps F (fun hsid => h ⟨hsid, hlt⟩) (List.length_pos_iff.mpr hne) hn hlt
        (map_length_view hxss) σ
    · exact randomShuffleBatch_overflows F hbuild (List.length_pos_iff.mpr hne) (Nat.le_of_not_lt hlt)
        (map_length_view hxss) σ
  · -- one party panics, and all have returned when the calls settle
    obtain ⟨rfl, hsid⟩ := Classical.not_imp.mp hbuild
    refine randomShuffleBatch_not_answers F hsid (List.length_pos_iff.mpr hne) (map_length_view hxss) σ
      (hsettles.answers ?_)
    rintro r ⟨yss, hr, -⟩ p
    rw [hr p]
    exact Outcome.returns_ok _

/-- **The shuffle is a hidden permutation**, with and without overflow checks in exactly the sessions in which no role
overflows, for batches whose length is a `u32`. -/
theorem randomShuffleBatch_correct_iff (hends : SamplingEnds R) (overflowChecks : Bool) (hne : xss ≠ []) (hn : 0 < n)
    (hxss : ∀ xs ∈ xss, xs.length = n) (hσ : Lockstep σ) :
    ShufflesCorrectly overflowChecks t sid n xss σ ↔ sid.toNat + 2 < 2 ^ 32 ∧ n < 2 ^ 32 :=
  ⟨fun h => by_contra fun hnot => not_shufflesCorrectly hne hn hxss hnot h,
    fun h => shufflesCorrectly_of_lt hends overflowChecks hne hn hxss hσ h.1 h.2⟩

theorem samplingEnds_stepRng : SamplingEnds StepRng := by
  intro modulus hmodulus _ rng
  -- the counter comes to a multiple of `2 ^ 64`, which is not rejected
  have hloop : ∀ k v, (v + k) % 2 ^ 64 = 0 → (sampleLoop modulus (k + 1) (⟨v⟩ : StepRng)).isSome := by
    intro k
    induction k with
    | zero =>
      intro v hv
      rw [sampleLoop]
      show (if (BitVec.ofNat 64 v).toNat ≤ _ then _ else _ : Option (Nat × StepRng)).isSome
      rw [BitVec.toNat_ofNat, show v % 2 ^ 64 = 0 from hv, if_pos (Nat.zero_le _)]
      rfl
    | succ k ih =>
      intro v hv
      rw [sampleLoop]
      dsimp only
      split
      · rfl
      · exact ih (v + 1) (by rw [← hv]; congr 1; omega)
  refine ⟨2 ^ 64 - rng.v % 2 ^ 64 + 1, hloop _ rng.v ?_⟩
  omega

/-- Two triples, shared. -/
def twoTriples : List (Triple RingTy.u16.bits) :=
  [(![1, 2, 3], ![4, 5, 6], ![7, 8, 9]), (![10, 20, 30], ![40, 50, 60], ![70, 80, 90])]

theorem randomShuffleBatch_correct_two : ShufflesCorrectly true .u16 7#32 2 [twoTriples] stepStreams :=
  (randomShuffleBatch_correct_iff samplingEnds_stepRng true (by simp) (by decide) (by simp [twoTriples])
    lockstep_stepStreams).mpr (by decide)

theorem not_shufflesCorrectly_maxSession : ¬ ShufflesCorrectly false .u16 4294967295#32 2 [twoTriples] stepStreams :=
  not_shufflesCorrectly (by simp) (by decide) (by simp [twoTriples]) (by decide)

end Claim

end Roles

end AmpcCommon.Protocol
