import AmpcCommon.Protocol.PlainIds
import AmpcCommon.Protocol.Proofs.DistanceProofs
import AmpcCommon.Protocol.Proofs.ShuffleProofs

/-!
# Distances with public ids, proofs

The difference and the sum of two ids are formed with 32 bits and then promoted. In a larger ring the borrow of the
difference and the carry of the sum are missing (`sub_add_eq_iff`, `add_sub_eq_iff`), so that a selected or swapped id
is the right one exactly when neither occurs (`firstValue_eq_iff`, `pairValues_eq_iff`). `plainIds_correct_iff` says
this of the two programs.
-/

namespace AmpcCommon.Protocol

/-! ## Ids in a ring -/

/-- The first id of a pair, by the control bit. -/
def firstValue (K : Nat) (b : Bool) (x y : BitVec 32) : BitVec K :=
  indicator K b * fromU32 K (x - y) + fromU32 K y

/-- The second id of a pair. -/
def secondValue (K : Nat) (b : Bool) (x y : BitVec 32) : BitVec K := fromU32 K (x + y) - firstValue K b x y

theorem firstValue_false (K : Nat) (x y : BitVec 32) : firstValue K false x y = fromU32 K y := by
  show 0 * fromU32 K (x - y) + fromU32 K y = fromU32 K y
  ring

theorem firstValue_true (K : Nat) (x y : BitVec 32) : firstValue K true x y = fromU32 K (x - y) + fromU32 K y := by
  show 1 * fromU32 K (x - y) + fromU32 K y = _
  ring

theorem toNat_fromU32 {K : Nat} (hK : 32 ≤ K) (x : BitVec 32) : (fromU32 K x).toNat = x.toNat :=
  BitVec.toNat_setWidth_of_le hK

/-- In a larger ring the difference is promoted without its borrow. -/
theorem sub_add_eq_iff {K : Nat} (hK : K = 48 ∨ K = 64) (x y : BitVec 32) :
    fromU32 K (x - y) + fromU32 K y = fromU32 K x ↔ y.toNat ≤ x.toNat := by
  have hx := x.isLt
  have hy := y.isLt
  rcases hK with rfl | rfl
  all_goals
    rw [← BitVec.toNat_inj, BitVec.toNat_add, toNat_fromU32 (by decide), toNat_fromU32 (by decide),
      toNat_fromU32 (by decide), BitVec.toNat_sub]
    omega

/-- In a larger ring the sum is promoted without its carry. -/
theorem add_sub_eq_iff {K : Nat} (hK : K = 48 ∨ K = 64) (x y : BitVec 32) :
    fromU32 K (x + y) - fromU32 K y = fromU32 K x ↔ x.toNat + y.toNat < 2 ^ 32 := by
  have hx := x.isLt
  have hy := y.isLt
  rcases hK with rfl | rfl
  all_goals
    rw [← BitVec.toNat_inj, BitVec.toNat_sub, toNat_fromU32 (by decide), toNat_fromU32 (by decide),
      toNat_fromU32 (by decide), BitVec.toNat_add]
    omega

theorem sub_add_self (x y : BitVec 32) : fromU32 32 (x - y) + fromU32 32 y = fromU32 32 x := by
  simp only [fromU32, BitVec.setWidth_eq]
  ring

theorem add_sub_self (x y : BitVec 32) : fromU32 32 (x + y) - fromU32 32 y = fromU32 32 x := by
  simp only [fromU32, BitVec.setWidth_eq]
  ring

/-- The rings that have `From<u32>`. -/
theorem fromU32_cases {t : RingTy} (ht : t ≠ .u16) : t = .u32 ∨ t ≠ .u32 ∧ (t.bits = 48 ∨ t.bits = 64) := by
  cases t with
  | u16 => exact absurd rfl ht
  | u32 => exact Or.inl rfl
  | ring48 => exact Or.inr ⟨by decide, Or.inl rfl⟩
  | u64 => exact Or.inr ⟨by decide, Or.inr rfl⟩

/-- The selected id is right unless the difference borrows. -/
theorem firstValue_eq_iff {t : RingTy} (ht : t ≠ .u16) (b : Bool) (x y : BitVec 32) :
    firstValue t.bits b x y = fromU32 t.bits (if b then x else y) ↔ t = .u32 ∨ (b = true → y.toNat ≤ x.toNat) := by
  cases b with
  | false => simp [firstValue_false]
  | true =>
    rw [firstValue_true, if_pos rfl]
    rcases fromU32_cases ht with rfl | ⟨hne, hK⟩
    · exact iff_of_true (sub_add_self x y) (Or.inl rfl)
    · rw [sub_add_eq_iff hK]
      simp [hne]

/-- The condition under which the ids of a pair are swapped correctly. -/
def PairFits (t : RingTy) (b : Bool) (x y : BitVec 32) : Prop :=
  t = .u32 ∨ x.toNat + y.toNat < 2 ^ 32 ∧ (b = true → y.toNat ≤ x.toNat)

/-- Both ids of a pair are right unless the sum carries or the difference borrows. -/
theorem pairValues_eq_iff {t : RingTy} (ht : t ≠ .u16) (b : Bool) (x y : BitVec 32) :
    (firstValue t.bits b x y = fromU32 t.bits (if b then x else y) ∧
      secondValue t.bits b x y = fromU32 t.bits (if b then y else x)) ↔ PairFits t b x y := by
  rw [firstValue_eq_iff ht]
  unfold PairFits
  rcases fromU32_cases ht with rfl | ⟨hne, hK⟩
  · refine iff_of_true ⟨Or.inl rfl, ?_⟩ (Or.inl rfl)
    have hfirst := (firstValue_eq_iff ht b x y).mpr (Or.inl rfl)
    unfold secondValue
    rw [hfirst]
    cases b with
    | false => exact add_sub_self x y
    | true =>
      rw [add_comm x y]
      exact add_sub_self y x
  · cases b with
    | false =>
      simp only [secondValue, firstValue_false, hne, Bool.false_eq_true, if_false, false_implies, or_true, true_and,
        and_true, false_or]
      exact add_sub_eq_iff hK x y
    | true =>
      simp only [hne, forall_const, if_true, false_or]
      rw [and_comm (a := x.toNat + y.toNat < 2 ^ 32)]
      refine and_congr_right fun hle => ?_
      have hfirst := (firstValue_eq_iff ht true x y).mpr (Or.inr fun _ => hle)
      unfold secondValue
      rw [hfirst, if_pos rfl, add_comm x y, add_sub_eq_iff hK, Nat.add_comm]

/-- A pair with one index only. -/
theorem secondValue_self_iff {t : RingTy} (ht : t ≠ .u16) (b : Bool) (x : BitVec 32) :
    secondValue t.bits b x x = fromU32 t.bits x ↔ PairFits t b x x := by
  have hfirst := (firstValue_eq_iff ht b x x).mpr (Or.inr fun _ => le_refl _)
  have hpair := pairValues_eq_iff ht b x x
  rw [ite_self] at hfirst
  rw [ite_self] at hpair
  exact (and_iff_right hfirst).symm.trans hpair

/-! ## A loop over index pairs -/

section PairLoop

variable {α β : Type}

/-- Both elements of every pair are replaced. -/
def pairLoop (f g : β → Nat × Nat → α) : List β → List (Nat × Nat) → List α → List α
  | b :: bs, i :: is, l => pairLoop f g bs is ((l.set i.1 (f b i)).set i.2 (g b i))
  | _, _, l => l

@[simp] theorem length_pairLoop (f g : β → Nat × Nat → α) (bs : List β) (is : List (Nat × Nat)) (l : List α) :
    (pairLoop f g bs is l).length = l.length := by
  fun_induction pairLoop f g bs is l with
  | case1 b bs i is l ih => rw [ih, List.length_set, List.length_set]
  | case2 => rfl

/-- The pairs have no index in common. -/
def DisjointPairs (i k : Nat × Nat) : Prop := i.1 ≠ k.1 ∧ i.1 ≠ k.2 ∧ i.2 ≠ k.1 ∧ i.2 ≠ k.2

/-- What no pair names is left as it is. -/
theorem pairLoop_getElem? (f g : β → Nat × Nat → α) (bs : List β) (is : List (Nat × Nat)) (l : List α) {n : Nat}
    (hn : ∀ i ∈ is, i.1 ≠ n ∧ i.2 ≠ n) : (pairLoop f g bs is l)[n]? = l[n]? := by
  fun_induction pairLoop f g bs is l with
  | case1 b bs i is l ih =>
    obtain ⟨h1, h2⟩ := hn i List.mem_cons_self
    rw [ih fun k hk => hn k (List.mem_cons_of_mem _ hk), List.getElem?_set_ne h2, List.getElem?_set_ne h1]
  | case2 => rfl

/-- The elements of pairs that are apart. -/
theorem pairLoop_pairs (f g : β → Nat × Nat → α) {bs : List β} {is : List (Nat × Nat)} {l : List α}
    (hdisjoint : is.Pairwise DisjointPairs) (hbound : ∀ i ∈ is, i.1 < l.length ∧ i.2 < l.length) :
    ∀ bi ∈ bs.zip is, (pairLoop f g bs is l)[bi.2.1]? = some (if bi.2.1 = bi.2.2 then g bi.1 bi.2 else f bi.1 bi.2) ∧
      (pairLoop f g bs is l)[bi.2.2]? = some (g bi.1 bi.2) := by
  induction is generalizing bs l with
  | nil => simp
  | cons i is ih =>
    cases bs with
    | nil => simp
    | cons b bs =>
      obtain ⟨hfirst, hrest⟩ := List.pairwise_cons.mp hdisjoint
      obtain ⟨h1, h2⟩ := hbound i List.mem_cons_self
      intro bi hbi
      rcases List.mem_cons.mp hbi with rfl | hbi
      · simp only [pairLoop]
        rw [pairLoop_getElem? _ _ _ _ _ fun k hk => ⟨(hfirst k hk).1.symm, (hfirst k hk).2.1.symm⟩,
          pairLoop_getElem? _ _ _ _ _ fun k hk => ⟨(hfirst k hk).2.2.1.symm, (hfirst k hk).2.2.2.symm⟩]
        have hsecond : ((l.set i.1 (f b i)).set i.2 (g b i))[i.2]? = some (g b i) :=
          List.getElem?_set_self (by rw [List.length_set]; exact h2)
        refine ⟨?_, hsecond⟩
        by_cases heq : i.1 = i.2
        · rw [if_pos heq, heq]
          rw [heq] at hsecond
          exact hsecond
        · rw [if_neg heq, List.getElem?_set_ne (Ne.symm heq)]
          exact List.getElem?_set_self h1
      · refine ih hrest (fun k hk => ?_) bi hbi
        rw [List.length_set, List.length_set]
        exact hbound k (List.mem_cons_of_mem _ hk)

theorem pairLoop_nil (f g : β → Nat × Nat → α) (bs : List β) (l : List α) : pairLoop f g bs [] l = l := by
  cases bs <;> rfl

/-- A function of the elements, where what the pairs are replaced by is related. -/
theorem map_pairLoop {γ δ : Type} {k : α → γ} {related : β → δ → Prop} {F G : β → Nat × Nat → α}
    {f g : δ → Nat × Nat → γ} (hF : ∀ c b i, related c b → k (F c i) = f b i)
    (hG : ∀ c b i, related c b → k (G c i) = g b i) {cs : List β} {bs : List δ} (h : List.Forall₂ related cs bs)
    (is : List (Nat × Nat)) (l : List α) : (pairLoop F G cs is l).map k = pairLoop f g bs is (l.map k) := by
  induction h generalizing is l with
  | nil => rfl
  | cons hrelated _ ih =>
    cases is with
    | nil => rfl
    | cons i is => rw [pairLoop, pairLoop, ih, List.map_set, List.map_set, hF _ _ i hrelated, hG _ _ i hrelated]

/-- What the pairs are replaced by may be formed from the indices first. -/
theorem pairLoop_zipWith {γ : Type} (f g : γ → Nat × Nat → α) (h : β → Nat × Nat → γ) (bs : List β)
    (is : List (Nat × Nat)) (l : List α) : pairLoop f g (List.zipWith h bs is) is l =
      pairLoop (fun b i => f (h b i) i) (fun b i => g (h b i) i) bs is l := by
  induction is generalizing bs l with
  | nil => rw [pairLoop_nil, pairLoop_nil]
  | cons i is ih =>
    cases bs with
    | nil => rfl
    | cons b bs =>
      rw [List.zipWith_cons_cons, pairLoop, pairLoop, ih]

end PairLoop

/-! ## The programs -/

section Sharings

variable {K : Nat}

theorem SharesOf.unique {v : Party → List (Share K)} {a b : List (BitVec K)} (ha : SharesOf v a)
    (hb : SharesOf v b) : a = b := by
  obtain ⟨xs, hx, rfl⟩ := ha
  obtain ⟨ys, hy, rfl⟩ := hb
  have hview : ∀ p, xs.map (Rep3.view p) = ys.map (Rep3.view p) := fun p => (hx p).symm.trans (hy p)
  have hlen : xs.length = ys.length := by
    have hlengths := congrArg List.length (hview 0)
    rw [List.length_map, List.length_map] at hlengths
    exact hlengths
  refine congrArg (List.map Rep3.sum) (List.ext_getElem hlen fun n hn hn' => ?_)
  funext p
  have hget := congrArg (fun l => (l.getD n 0).a) (hview p)
  rw [getD_map_of_lt hn, getD_map_of_lt hn'] at hget
  exact hget

/-- What the party `p` holds of a list of distances with public ids. -/
def plainView (p : Party) (entries : List (BitVec 32 × Rep3Distance K)) : List (PlainIdDistance K) :=
  entries.map fun e => (e.1, e.2.view p)

/-- The public id of an entry. -/
def idAt (entries : List (BitVec 32 × Rep3Distance K)) (n : Nat) : BitVec 32 := (entries.map Prod.fst).getD n 0

/-- The components of the first id of a pair. -/
def firstRep (x y : BitVec 32) (c : Rep3 K) : Rep3 K := fun q =>
  c q * fromU32 K (x - y) + if q = 0 then fromU32 K y else 0

/-- The components of the second id of a pair. -/
def secondRep (x y : BitVec 32) (c : Rep3 K) : Rep3 K := fun q =>
  -firstRep x y c q + if q = 0 then fromU32 K (x + y) else 0

theorem addAssignConstRole_view (p : Party) (x : Rep3 K) (v : BitVec K) :
    (x.view p).addAssignConstRole v p = Rep3.view p fun q => x q + if q = 0 then v else 0 := by
  fin_cases p
  all_goals
    ext1
    all_goals simp [Rep3.view, Share.addAssignConstRole]

theorem selectPlainId_view (p : Party) (x y : BitVec 32) (c : Rep3 K) :
    selectPlainId p x y (c.view p) = Rep3.view p (firstRep x y c) :=
  addAssignConstRole_view p (fun q => c q * fromU32 K (x - y)) (fromU32 K y)

theorem secondId_view (p : Party) (x y : BitVec 32) (c : Rep3 K) :
    (-(Rep3.view p (firstRep x y c))).addAssignConstRole (fromU32 K (x + y)) p = Rep3.view p (secondRep x y c) :=
  addAssignConstRole_view p (fun q => -firstRep x y c q) (fromU32 K (x + y))

theorem sum_firstRep (x y : BitVec 32) {c : Rep3 K} {b : Bool} (hc : c.sum = indicator K b) :
    (firstRep x y c).sum = firstValue K b x y := by
  unfold firstValue
  rw [← hc]
  show (c 0 * _ + fromU32 K y) + (c 1 * _ + 0) + (c 2 * _ + 0) = (c 0 + c 1 + c 2) * _ + _
  ring

theorem sum_secondRep (x y : BitVec 32) {c : Rep3 K} {b : Bool} (hc : c.sum = indicator K b) :
    (secondRep x y c).sum = secondValue K b x y := by
  unfold secondValue
  rw [← sum_firstRep x y hc]
  show (-firstRep x y c 0 + fromU32 K (x + y)) + (-firstRep x y c 1 + 0) + (-firstRep x y c 2 + 0) =
    fromU32 K (x + y) - (firstRep x y c 0 + firstRep x y c 1 + firstRep x y c 2)
  ring

/-- The parties hold shares of entries, whose ids are shared as well. -/
def EntriesOf (v : Party → List (IdDistance K)) (xs : List (BitVec K × BitVec K × BitVec K)) : Prop :=
  ∃ zs : List (Triple K), (∀ p, v p = zs.map (viewTriple p)) ∧ zs.map openTriple = xs

theorem EntriesOf.ids {v : Party → List (IdDistance K)} {xs : List (BitVec K × BitVec K × BitVec K)}
    (h : EntriesOf v xs) : SharesOf (fun p => (v p).map Prod.fst) (xs.map Prod.fst) := by
  obtain ⟨zs, hz, rfl⟩ := h
  refine ⟨zs.map Prod.fst, fun p => ?_, ?_⟩
  · show (v p).map Prod.fst = _
    rw [hz p, List.map_map, List.map_map]
    rfl
  · rw [List.map_map, List.map_map]
    rfl

/-- The components of the distance that is left of a pair. -/
def restDistance (q : Rep3Distance K × Rep3Distance K) (z : Rep3Distance K) : Rep3Distance K :=
  (fun r => q.1.1 r + q.2.1 r - z.1 r, fun r => q.1.2 r + q.2.2 r - z.2 r)

/-- The distance that is left of a pair. -/
def restValue (d e v : BitVec K × BitVec K) : BitVec K × BitVec K := (d.1 + e.1 - v.1, d.2 + e.2 - v.2)

theorem sum_add_sub (x y w : Rep3 K) : (Rep3.sum fun r => x r + y r - w r) = x.sum + y.sum - w.sum := by
  unfold Rep3.sum
  ring

theorem value_restDistance (q : Rep3Distance K × Rep3Distance K) (z : Rep3Distance K) :
    (restDistance q z).value = restValue q.1.value q.2.value z.value :=
  Prod.ext (sum_add_sub q.1.1 q.2.1 z.1) (sum_add_sub q.1.2 q.2.2 z.2)

theorem restValue_select (b : Bool) (d e : BitVec K × BitVec K) :
    restValue d e (selectDistance b d e) = selectDistance (!b) d e := by
  cases b with
  | false => exact Prod.ext (add_sub_cancel_right _ _) (add_sub_cancel_right _ _)
  | true => exact Prod.ext (add_sub_cancel_left _ _) (add_sub_cancel_left _ _)

/-- The distance of an entry. -/
def distanceAt (entries : List (BitVec 32 × Rep3Distance K)) (n : Nat) : Rep3Distance K := (entries.getD n (0, 0, 0)).2

theorem plainView_getD (p : Party) (entries : List (BitVec 32 × Rep3Distance K)) (n : Nat) :
    (plainView p entries).getD n (0, ⟨0, 0⟩) = (idAt entries n, (distanceAt entries n).view p) := by
  unfold plainView idAt distanceAt
  rw [List.getD_eq_getElem?_getD, List.getD_eq_getElem?_getD, List.getD_eq_getElem?_getD, List.getElem?_map,
    List.getElem?_map]
  cases entries[n]? <;> rfl

/-- The components of both entries of a pair, from those of the control bit and the selected distance. -/
def firstPlain (entries : List (BitVec 32 × Rep3Distance K)) (x : Rep3 K × Rep3Distance K) (i : Nat × Nat) : Triple K :=
  (firstRep (idAt entries i.1) (idAt entries i.2) x.1, x.2)

def secondPlain (entries : List (BitVec 32 × Rep3Distance K)) (x : Rep3 K × Rep3Distance K) (i : Nat × Nat) :
    Triple K :=
  (secondRep (idAt entries i.1) (idAt entries i.2) x.1,
    restDistance (distanceAt entries i.1, distanceAt entries i.2) x.2)

/-- The components of a control bit and of a selected distance stand for the bit and the distance. -/
def StandsFor (x : Rep3 K × Rep3Distance K) (y : Bool × BitVec K × BitVec K) : Prop :=
  x.1.sum = indicator K y.1 ∧ x.2.value = y.2

/-- What the loop leaves, opened. -/
theorem open_pairLoop (entries : List (BitVec 32 × Rep3Distance K)) (indices : List (Nat × Nat)) {cs : List (Rep3 K)}
    {zs : List (Rep3Distance K)} {bs : List Bool} (hcs : cs.map Rep3.sum = bs.map (indicator K))
    (hzs : zs.map Rep3Distance.value = List.zipWith (fun b d => selectDistance b d.1 d.2) bs
      (indices.map fun i => ((distanceAt entries i.1).value, (distanceAt entries i.2).value)))
    (swapped : List (Triple K)) :
    (pairLoop (firstPlain entries) (secondPlain entries) (cs.zip zs) indices swapped).map openTriple =
      pairLoop
        (fun b i => (firstValue K b (idAt entries i.1) (idAt entries i.2),
          selectDistance b (distanceAt entries i.1).value (distanceAt entries i.2).value))
        (fun b i => (secondValue K b (idAt entries i.1) (idAt entries i.2),
          selectDistance (!b) (distanceAt entries i.1).value (distanceAt entries i.2).value))
        bs indices (swapped.map openTriple) := by
  have hbits : List.Forall₂ Eq (cs.map Rep3.sum) (bs.map (indicator K)) := by
    rw [hcs]
    exact List.forall₂_same.mpr fun _ _ => rfl
  rw [List.forall₂_map_left_iff, List.forall₂_map_right_iff] at hbits
  have hpairs : List.Forall₂ StandsFor (cs.zip zs) (bs.zip (zs.map Rep3Distance.value)) := by
    clear hzs hcs
    induction hbits generalizing zs with
    | nil => exact .nil
    | cons hbit _ ih =>
      cases zs with
      | nil => exact .nil
      | cons z zs => exact .cons ⟨hbit, rfl⟩ ih
  have hlist : bs.zip (zs.map Rep3Distance.value) = List.zipWith (fun b i =>
      (b, selectDistance b (distanceAt entries i.1).value (distanceAt entries i.2).value)) bs indices := by
    rw [hzs, List.zipWith_map_right]
    refine List.ext_getElem (by simp) fun n hn hn' => ?_
    simp only [List.getElem_zip, List.getElem_zipWith]
  rw [map_pairLoop (f := fun x i => (firstValue K x.1 (idAt entries i.1) (idAt entries i.2), x.2))
    (g := fun x i => (secondValue K x.1 (idAt entries i.1) (idAt entries i.2),
      restValue (distanceAt entries i.1).value (distanceAt entries i.2).value x.2)) ?_ ?_ hpairs, hlist,
    pairLoop_zipWith]
  · simp only [restValue_select]
  · rintro ⟨c, z⟩ ⟨b, v⟩ i ⟨hc, hz⟩
    exact Prod.ext (sum_firstRep _ _ hc) hz
  · rintro ⟨c, z⟩ ⟨b, v⟩ i ⟨hc, hz⟩
    refine Prod.ext (sum_secondRep _ _ hc) ?_
    show (restDistance _ z).value = _
    rw [value_restDistance, hz]

/-- The loop, as a loop over index pairs. -/
theorem swapLoop_view (p : Party) (entries : List (BitVec 32 × Rep3Distance K)) (cs : List (Rep3 K))
    (indices : List (Nat × Nat)) (zs : List (Rep3Distance K)) (swapped : List (Triple K)) :
    swapLoop p (plainView p entries) (cs.map (Rep3.view p)) indices (zs.map (Rep3Distance.view p))
      (List.zipWith secondDistance
        (indices.map fun i => ((distanceAt entries i.1).view p, (distanceAt entries i.2).view p))
        (zs.map (Rep3Distance.view p))) (swapped.map (viewTriple p)) =
      (pairLoop (firstPlain entries) (secondPlain entries) (cs.zip zs) indices swapped).map (viewTriple p) := by
  induction indices generalizing cs zs swapped with
  | nil =>
    rw [pairLoop_nil]
    cases cs <;> rfl
  | cons i indices ih =>
    cases cs with
    | nil => rfl
    | cons c cs =>
      cases zs with
      | nil => rfl
      | cons z zs =>
        have hfirst : ((c.view p).mulConst (fromU32 K (idAt entries i.1 - idAt entries i.2))).addAssignConstRole
            (fromU32 K (idAt entries i.2)) p = Rep3.view p (firstRep (idAt entries i.1) (idAt entries i.2) c) :=
          selectPlainId_view p _ _ c
        simp only [List.map_cons, List.zipWith_cons_cons, List.zip_cons_cons, swapLoop, pairLoop, plainView_getD,
          hfirst, secondId_view]
        rw [← ih, List.map_set, List.map_set]
        rfl

end Sharings

section Programs

variable {R : Type} [Rng R] {t : RingTy} {bs : List Bool}

/-- The ids that a selection leaves. -/
def selectedValues (K : Nat) (bs : List Bool) (left right : List (BitVec 32)) : List (BitVec K) :=
  List.zipWith (fun b ids => firstValue K b ids.1 ids.2) bs (left.zip right)

theorem conditionallySelectDistancesWithPlainIds_succeeds (sid : BitVec 32)
    {left right : List (BitVec 32 × Rep3Distance t.bits)} (hne : left ≠ []) (hlen : right.length = left.length)
    (hbs : bs.length = left.length) {c : Party → List (Share t.bits)} (hc : SharesOf c (bs.map (indicator t.bits))) :
    Succeeds (fun p => (conditionallySelectDistancesWithPlainIds t ⟨p, sid⟩ (plainView p left) (plainView p right)
      (c p) : Proc R _)) fun r =>
        SharesOf (fun p => (r p).map Prod.fst) (selectedValues t.bits bs (left.map Prod.fst) (right.map Prod.fst)) := by
  have hpos : 0 < left.length := List.length_pos_iff.mpr hne
  have hview : ∀ p, (plainView p left).length = left.length ∧ (plainView p right).length = left.length :=
    fun p => ⟨List.length_map _, (List.length_map _).trans hlen⟩
  have hcn : ∀ p, (c p).length = left.length := by
    intro p
    rw [hc.length, List.length_map, hbs]
  have hprog : ∀ p, (conditionallySelectDistancesWithPlainIds t ⟨p, sid⟩ (plainView p left) (plainView p right) (c p) :
      Proc R _) = (conditionallySelectDistance t
        (((plainView p left).map Prod.snd).zip ((plainView p right).map Prod.snd)) (c p) >>= fun distances =>
        pure ((List.zipWith (fun ids c => selectPlainId p ids.1.1 ids.2.1 c)
          ((plainView p left).zip (plainView p right)) (c p)).zip distances)) := by
    intro p
    obtain ⟨hl, hr⟩ := hview p
    have hzip : (((plainView p left).map Prod.snd).zip ((plainView p right).map Prod.snd)).length = left.length := by
      rw [List.length_zip, List.length_map, List.length_map, hl, hr, Nat.min_self]
    unfold conditionallySelectDistancesWithPlainIds conditionallySelectDistance
    rw [if_neg (by omega), if_neg (by rw [hl, hcn]; exact not_not.mpr rfl),
      if_neg (by rw [hl, hr]; exact not_not.mpr rfl), if_neg (by rw [hzip, hcn]; exact not_not.mpr rfl), hzip, hl,
      bind_assoc]
    rfl
  have hpairs : PairsOf (fun p => ((plainView p left).map Prod.snd).zip ((plainView p right).map Prod.snd))
      (((left.map Prod.snd).zip (right.map Prod.snd)).map fun q => (q.1.value, q.2.value)) := by
    refine ⟨(left.map Prod.snd).zip (right.map Prod.snd), fun p => ?_, rfl⟩
    simp [plainView, List.zip_map, List.map_map, Function.comp_def, Prod.map]
  simp only [hprog]
  have hn : bs.length = (((left.map Prod.snd).zip (right.map Prod.snd)).map
      fun q => (q.1.value, q.2.value)).length := by
    rw [List.length_map, List.length_zip, List.length_map, List.length_map, hlen, Nat.min_self, hbs]
  refine (conditionallySelectDistance_select hpairs hn hc).bind fun ds hds => Succeeds.pure ?_
  obtain ⟨cs, hcs, hsum⟩ := hc
  refine ⟨List.zipWith (fun ids c => firstRep ids.1.1 ids.2.1 c) (left.zip right) cs, fun p => ?_, ?_⟩
  · show ((List.zipWith _ _ (c p)).zip (ds p)).map Prod.fst = _
    rw [List.map_fst_zip, hcs p, List.map_zipWith]
    · simp only [plainView, List.zip_map, List.zipWith_map, Prod.map, selectPlainId_view]
    · rw [hds.length, List.length_zipWith, List.length_zipWith, hcn, ← hn, hbs, Nat.min_self]
      exact Nat.min_le_right _ _
  · have hlengths := congrArg List.length hsum
    rw [List.length_map, List.length_map] at hlengths
    refine List.ext_getElem (by simp [selectedValues, hlengths, hbs, hlen]) fun n hn hn' => ?_
    have hncs : n < cs.length := by
      rw [List.length_map, List.length_zipWith] at hn
      omega
    have hnbs : n < bs.length := by omega
    have hbit : cs[n].sum = indicator t.bits bs[n] := by
      have hget := congrArg (fun l => l.getD n 0) hsum
      rw [getD_map_of_lt hncs, getD_map_of_lt hnbs] at hget
      exact hget
    simp only [selectedValues, List.getElem_map, List.getElem_zipWith, List.getElem_zip]
    exact sum_firstRep _ _ hbit

/-- The ids that a swap leaves. -/
def swappedValues (K : Nat) (entries : List (BitVec 32 × Rep3Distance K)) (bs : List Bool)
    (indices : List (Nat × Nat)) : List (BitVec K) :=
  pairLoop (fun b i => firstValue K b (idAt entries i.1) (idAt entries i.2))
    (fun b i => secondValue K b (idAt entries i.1) (idAt entries i.2)) bs indices
    (entries.map fun e => fromU32 K e.1)

/-- The entries that a swap leaves: the ids, and the distances of every pair in the order of its bit. -/
def swappedEntries (K : Nat) (entries : List (BitVec 32 × Rep3Distance K)) (bs : List Bool)
    (indices : List (Nat × Nat)) : List (BitVec K × BitVec K × BitVec K) :=
  pairLoop
    (fun b i => (firstValue K b (idAt entries i.1) (idAt entries i.2),
      selectDistance b (distanceAt entries i.1).value (distanceAt entries i.2).value))
    (fun b i => (secondValue K b (idAt entries i.1) (idAt entries i.2),
      selectDistance (!b) (distanceAt entries i.1).value (distanceAt entries i.2).value))
    bs indices (entries.map fun e => (fromU32 K e.1, e.2.value))

theorem map_fst_swappedEntries (K : Nat) (entries : List (BitVec 32 × Rep3Distance K)) (bs : List Bool)
    (indices : List (Nat × Nat)) :
    (swappedEntries K entries bs indices).map Prod.fst = swappedValues K entries bs indices := by
  unfold swappedEntries swappedValues
  have hsame : List.Forall₂ Eq bs bs := List.forall₂_same.mpr fun _ _ => rfl
  refine (map_pairLoop ?_ ?_ hsame indices _).trans (congrArg _ List.map_map)
  · rintro c b i rfl
    rfl
  · rintro c b i rfl
    rfl

theorem setWidth_ofBool_indicator (K : Nat) (bs : List Bool) :
    (bs.map BitVec.ofBool).map (BitVec.setWidth K) = bs.map (indicator K) := by
  rw [List.map_map]
  refine List.map_congr_left fun b _ => ?_
  cases b with
  | false => exact BitVec.setWidth_zero ..
  | true => exact BitVec.eq_of_toNat_eq (by simp [indicator])

/-- Pairs within the bounds pass the check. -/
theorem find_outOfBounds_none {indices : List (Nat × Nat)} {n : Nat} (hbound : ∀ i ∈ indices, i.1 < n ∧ i.2 < n) :
    (indices.find? fun (idx1, idx2) => idx1 ≥ n ∨ idx2 ≥ n) = none := by
  rw [List.find?_eq_none]
  intro i hi
  obtain ⟨h1, h2⟩ := hbound i hi
  simp only [decide_eq_true_eq]
  omega

/-- The entries that a swap with public ids leaves. -/
theorem conditionallySwapDistancesPlainIds_entries (sid : BitVec 32) {entries : List (BitVec 32 × Rep3Distance t.bits)}
    {indices : List (Nat × Nat)} (hbs : bs.length = indices.length)
    (hbound : ∀ i ∈ indices, i.1 < entries.length ∧ i.2 < entries.length) {b : Party → List (Share 1)}
    (hb : SharesBits b (bs.map BitVec.ofBool)) :
    Succeeds (fun p => (conditionallySwapDistancesPlainIds t ⟨p, sid⟩ (b p) (plainView p entries) indices :
      Proc R _)) fun r => EntriesOf r (swappedEntries t.bits entries bs indices) := by
  have hview : ∀ p, (plainView p entries).length = entries.length := fun p => List.length_map _
  have hlen : ∀ p, ¬ (b p).length ≠ indices.length := by
    intro p
    rw [hb.length, List.length_map]
    exact not_not.mpr hbs
  have hpairs : PairsOf (fun p => indices.map fun i =>
      ((distanceAt entries i.1).view p, (distanceAt entries i.2).view p))
      (indices.map fun i => ((distanceAt entries i.1).value, (distanceAt entries i.2).value)) := by
    refine ⟨indices.map fun i => (distanceAt entries i.1, distanceAt entries i.2), fun p => ?_, ?_⟩
    · rw [List.map_map]
      rfl
    · rw [List.map_map]
      rfl
  simp only [conditionallySwapDistancesPlainIds, hview, find_outOfBounds_none hbound, if_neg (hlen _), plainView_getD]
  refine (bitInject_sharesOf sid hb).bind fun c hc => ?_
  rw [setWidth_ofBool_indicator] at hc
  refine (conditionallySelectDistance_select hpairs (by simp [hbs]) hc).bind fun ds hds => Succeeds.pure ?_
  obtain ⟨cs, hcs, hsum⟩ := hc
  obtain ⟨zs, hzs, hvalue⟩ := hds
  -- the trivial shares of the public ids
  have hconst : ∀ p, (plainView p entries).map (fun e => (Share.fromConst (fromU32 t.bits e.1) p, e.2)) =
      (entries.map fun e => ((fun q => if q = 0 then fromU32 t.bits e.1 else 0, e.2) : Triple t.bits)).map
        (viewTriple p) := by
    intro p
    unfold plainView
    rw [List.map_map, List.map_map]
    refine List.map_congr_left fun e _ => ?_
    have hzero := addAssignConstRole_view p (fun _ => (0 : BitVec t.bits)) (fromU32 t.bits e.1)
    simp only [zero_add] at hzero
    exact Prod.ext hzero rfl
  refine ⟨pairLoop (firstPlain entries) (secondPlain entries) (cs.zip zs) indices
    (entries.map fun e => (fun q => if q = 0 then fromU32 t.bits e.1 else 0, e.2)), fun p => ?_, ?_⟩
  · show swapLoop p _ (c p) indices (ds p) _ _ = _
    rw [hcs p, hzs p]
    refine (congrArg _ (hconst p)).trans ?_
    exact swapLoop_view p entries cs indices zs _
  · have hids : (entries.map fun e => ((fun q => if q = 0 then fromU32 t.bits e.1 else 0, e.2) : Triple t.bits)).map
        openTriple = entries.map fun e => (fromU32 t.bits e.1, e.2.value) := by
      rw [List.map_map]
      refine List.map_congr_left fun e _ => ?_
      have hsum : fromU32 t.bits e.1 + 0 + 0 = fromU32 t.bits e.1 := by rw [add_zero, add_zero]
      exact Prod.ext hsum rfl
    rw [open_pairLoop entries indices hsum hvalue, hids]
    rfl

theorem conditionallySwapDistancesPlainIds_succeeds (sid : BitVec 32) {entries : List (BitVec 32 × Rep3Distance t.bits)}
    {indices : List (Nat × Nat)} (hbs : bs.length = indices.length)
    (hbound : ∀ i ∈ indices, i.1 < entries.length ∧ i.2 < entries.length) {b : Party → List (Share 1)}
    (hb : SharesBits b (bs.map BitVec.ofBool)) :
    Succeeds (fun p => (conditionallySwapDistancesPlainIds t ⟨p, sid⟩ (b p) (plainView p entries) indices :
      Proc R _)) fun r => SharesOf (fun p => (r p).map Prod.fst) (swappedValues t.bits entries bs indices) :=
  (conditionallySwapDistancesPlainIds_entries sid hbs hbound hb).mono fun _ hr =>
    map_fst_swappedEntries t.bits entries bs indices ▸ hr.ids

/-! ## When the ids are right -/

/-- All parties return, and the selected ids open to the left ids where the bits are one and to the right ids where
they are zero. No distances are an error. -/
def SelectsPlainIds (t : RingTy) (bs : List Bool) (left right : List (BitVec 32))
    (o : Party → Outcome (List (IdDistance t.bits))) : Prop :=
  if left = [] then ∀ p, o p = .bail "Distances must not be empty"
  else ∃ r : Party → List (IdDistance t.bits), (∀ p, o p = .ok (r p)) ∧ SharesOf (fun p => (r p).map Prod.fst)
    ((bs.zip (left.zip right)).map fun x => fromU32 t.bits (if x.1 then x.2.1 else x.2.2))

/-- All parties return, and the ids at every pair open to what they were before, in this order if the bit is one and
exchanged if it is zero. -/
def SwapsPlainIds (t : RingTy) (entries : List (BitVec 32 × Rep3Distance t.bits)) (bs : List Bool)
    (indices : List (Nat × Nat)) (o : Party → Outcome (List (IdDistance t.bits))) : Prop :=
  ∃ (r : Party → List (IdDistance t.bits)) (ids : List (BitVec t.bits)), (∀ p, o p = .ok (r p)) ∧
    SharesOf (fun p => (r p).map Prod.fst) ids ∧ ∀ x ∈ bs.zip indices,
    ids[x.2.1]? = some (fromU32 t.bits (if x.1 then idAt entries x.2.1 else idAt entries x.2.2)) ∧
      ids[x.2.2]? = some (fromU32 t.bits (if x.1 then idAt entries x.2.2 else idAt entries x.2.1))

omit [Rng R] in
/-- What is said of the only outcome is said of every schedule. -/
theorem Succeeds.settles_iff {α : Type} {x : Party → Proc R α} {Q : (Party → α) → Prop} (h : Succeeds x Q)
    {σ : Party → Prf R} (hσ : Lockstep σ) (S : (Party → Outcome α) → Prop) :
    ∃ r, Q r ∧ ((Network.Settles nextParty (fun p => x p (σ p)) fun o => S fun p => (o p).1) ↔
      S fun p => .ok (r p)) := by
  obtain ⟨r, σ', hjoint, -, hr⟩ := h σ hσ
  exact ⟨r, hr, Network.Completes.settles_iff hjoint⟩

/-- Returned ids open to one list only. -/
theorem exists_sharesOf_iff {r : Party → List (IdDistance t.bits)} {values : List (BitVec t.bits)}
    (hr : SharesOf (fun p => (r p).map Prod.fst) values) (S : List (BitVec t.bits) → Prop) :
    (∃ (r' : Party → List (IdDistance t.bits)) (ids : List (BitVec t.bits)),
      (∀ p, (.ok (r p) : Outcome (List (IdDistance t.bits))) = .ok (r' p)) ∧
      SharesOf (fun p => (r' p).map Prod.fst) ids ∧ S ids) ↔ S values := by
  constructor
  · rintro ⟨r', ids, hok, hids, hS⟩
    obtain rfl : r = r' := funext fun p => Except.ok.inj (hok p)
    rw [hr.unique hids]
    exact hS
  · exact fun hS => ⟨r, values, fun p => rfl, hr, hS⟩

theorem selectPlainIds_iff (ht : t ≠ .u16) (sid : BitVec 32) {left right : List (BitVec 32 × Rep3Distance t.bits)}
    (hlen : right.length = left.length) (hbs : bs.length = left.length) {c : Party → List (Share t.bits)}
    (hc : SharesOf c (bs.map (indicator t.bits))) {σ : Party → Prf R} (hσ : Lockstep σ) :
    (Network.Settles nextParty (fun p => conditionallySelectDistancesWithPlainIds t ⟨p, sid⟩ (plainView p left)
      (plainView p right) (c p) (σ p)) fun o =>
        SelectsPlainIds t bs (left.map Prod.fst) (right.map Prod.fst) fun p => (o p).1) ↔
      ∀ x ∈ bs.zip ((left.map Prod.fst).zip (right.map Prod.fst)),
        t = .u32 ∨ (x.1 = true → x.2.2.toNat ≤ x.2.1.toNat) := by
  by_cases hne : left = []
  · subst hne
    cases List.length_eq_zero_iff.mp hbs
    refine iff_of_true ?_ (by simp)
    have hjoint : Joint (fun p => (Proc.lift (.bail "Distances must not be empty") : Proc R (List (IdDistance t.bits))))
        σ (fun _ => .bail "Distances must not be empty") σ := Network.Completes.pure _
    exact hjoint.settles ((if_pos rfl).mpr fun p => rfl)
  · obtain ⟨r, hr, hiff⟩ := (conditionallySelectDistancesWithPlainIds_succeeds (R := R) sid hne hlen hbs hc).settles_iff
      hσ (SelectsPlainIds t bs (left.map Prod.fst) (right.map Prod.fst))
    rw [hiff, SelectsPlainIds, if_neg (by simpa using hne)]
    have hvalues := exists_sharesOf_iff hr fun ids => ids =
      (bs.zip ((left.map Prod.fst).zip (right.map Prod.fst))).map fun x => fromU32 t.bits (if x.1 then x.2.1 else x.2.2)
    have hmap : selectedValues t.bits bs (left.map Prod.fst) (right.map Prod.fst) =
        (bs.zip ((left.map Prod.fst).zip (right.map Prod.fst))).map fun x => firstValue t.bits x.1 x.2.1 x.2.2 :=
      (List.map_zip_eq_zipWith (f := fun x : Bool × BitVec 32 × BitVec 32 => firstValue t.bits x.1 x.2.1 x.2.2)).symm
    rw [hmap, List.map_inj_left] at hvalues
    simp only [firstValue_eq_iff ht] at hvalues
    rw [← hvalues]
    constructor
    · rintro ⟨r', hok, hids⟩
      exact ⟨r', _, hok, hids, rfl⟩
    · rintro ⟨r', ids, hok, hids, rfl⟩
      exact ⟨r', hok, hids⟩

theorem swapPlainIds_iff (ht : t ≠ .u16) (sid : BitVec 32) {entries : List (BitVec 32 × Rep3Distance t.bits)}
    {indices : List (Nat × Nat)} (hbs : bs.length = indices.length)
    (hbound : ∀ i ∈ indices, i.1 < entries.length ∧ i.2 < entries.length) (hdisjoint : indices.Pairwise DisjointPairs)
    {b : Party → List (Share 1)} (hb : SharesBits b (bs.map BitVec.ofBool)) {σ : Party → Prf R} (hσ : Lockstep σ) :
    (Network.Settles nextParty (fun p => conditionallySwapDistancesPlainIds t ⟨p, sid⟩ (b p) (plainView p entries)
      indices (σ p)) fun o => SwapsPlainIds t entries bs indices fun p => (o p).1) ↔
      ∀ x ∈ bs.zip indices, PairFits t x.1 (idAt entries x.2.1) (idAt entries x.2.2) := by
  obtain ⟨r, hr, hiff⟩ := (conditionallySwapDistancesPlainIds_succeeds (R := R) sid hbs hbound hb).settles_iff hσ
    (SwapsPlainIds t entries bs indices)
  rw [hiff]
  refine (exists_sharesOf_iff hr _).trans (forall₂_congr fun x hx => ?_)
  have hids := pairLoop_pairs (l := entries.map fun e => fromU32 t.bits e.1)
    (fun b i => firstValue t.bits b (idAt entries i.1) (idAt entries i.2))
    (fun b i => secondValue t.bits b (idAt entries i.1) (idAt entries i.2)) hdisjoint
    (fun i hi => by rw [List.length_map]; exact hbound i hi) x hx
  unfold swappedValues
  rw [hids.1, hids.2, Option.some_inj, Option.some_inj]
  by_cases hsame : x.2.1 = x.2.2
  · rw [if_pos hsame, hsame, ite_self, and_self]
    exact secondValue_self_iff ht x.1 _
  · rw [if_neg hsame]
    exact pairValues_eq_iff ht x.1 _ _

/-- **Public ids.** For every ring with `From<u32>`, all ids, control bits, sharings and streams: a selection leaves the
right ids exactly when the ring has 32 bits or no left id that is selected is below its right id; and a swap at disjoint
pairs leaves the right ids exactly when the ring has 32 bits or, at every pair, the sum of the ids fits into 32 bits and
the first id is not below the second one where the bit is one. -/
theorem plainIds_correct_iff (ht : t ≠ .u16) (sid : BitVec 32) (bs : List Bool) (σ : Party → Prf R) (hσ : Lockstep σ) :
    (∀ (left right : List (BitVec 32 × Rep3Distance t.bits)), right.length = left.length → bs.length = left.length →
      ∀ c : Party → List (Share t.bits), SharesOf c (bs.map (indicator t.bits)) →
        ((Network.Settles nextParty (fun p => conditionallySelectDistancesWithPlainIds t ⟨p, sid⟩ (plainView p left)
          (plainView p right) (c p) (σ p)) fun o =>
            SelectsPlainIds t bs (left.map Prod.fst) (right.map Prod.fst) fun p => (o p).1) ↔
          ∀ x ∈ bs.zip ((left.map Prod.fst).zip (right.map Prod.fst)),
            t = .u32 ∨ (x.1 = true → x.2.2.toNat ≤ x.2.1.toNat))) ∧
    (∀ (entries : List (BitVec 32 × Rep3Distance t.bits)) (indices : List (Nat × Nat)), bs.length = indices.length →
      (∀ i ∈ indices, i.1 < entries.length ∧ i.2 < entries.length) → indices.Pairwise DisjointPairs →
      ∀ b : Party → List (Share 1), SharesBits b (bs.map BitVec.ofBool) →
        ((Network.Settles nextParty (fun p => conditionallySwapDistancesPlainIds t ⟨p, sid⟩ (b p) (plainView p entries)
          indices (σ p)) fun o => SwapsPlainIds t entries bs indices fun p => (o p).1) ↔
          ∀ x ∈ bs.zip indices, PairFits t x.1 (idAt entries x.2.1) (idAt entries x.2.2))) :=
  ⟨fun _ _ hlen hbs _ hc => selectPlainIds_iff ht sid hlen hbs hc hσ,
    fun _ _ hbs hbound hdisjoint _ hb => swapPlainIds_iff ht sid hbs hbound hdisjoint hb hσ⟩

end Programs

/-! ## Two ids in a larger ring -/

/-- The ids 10 and 30, with distances of zeros. -/
def twoEntries (K : Nat) : List (BitVec 32 × Rep3Distance K) := [(10, 0, 0), (30, 0, 0)]

theorem sharesOf_one (K : Nat) : SharesOf (fun p => [Rep3.view p ![1, 0, 0]]) ([true].map (indicator K)) :=
  ⟨[![1, 0, 0]], fun _ => rfl, by simp [Rep3.sum, indicator]⟩

theorem sharesBits_one : SharesBits (fun p => [Rep3.view p ![1, 0, 0]]) ([true].map BitVec.ofBool) :=
  ⟨[![1, 0, 0]], fun _ => rfl, rfl⟩

/-- Among the ids 30 and 10 the selection is right in the ring with 64 bits. -/
theorem plainIds_correct_descending :
    Network.Settles nextParty (fun p => conditionallySelectDistancesWithPlainIds .u64 ⟨p, 0⟩
      (plainView p [(30, 0, 0)]) (plainView p [(10, 0, 0)]) [Rep3.view p ![1, 0, 0]] (stepStreams p)) fun o =>
        SelectsPlainIds .u64 [true] [30] [10] fun p => (o p).1 := by
  obtain ⟨hselect, -⟩ := plainIds_correct_iff (t := .u64) (by decide) 0 [true] stepStreams lockstep_stepStreams
  exact (hselect [(30, 0, 0)] [(10, 0, 0)] rfl rfl _ (sharesOf_one 64)).mpr (by simp)

/-- With the ids 10 and 30 and the bit one, neither the selection nor the swap is right in the ring with 64 bits. -/
theorem plainIds_ascending :
    (¬ Network.Settles nextParty (fun p => conditionallySelectDistancesWithPlainIds .u64 ⟨p, 0⟩
      (plainView p [(10, 0, 0)]) (plainView p [(30, 0, 0)]) [Rep3.view p ![1, 0, 0]] (stepStreams p)) fun o =>
        SelectsPlainIds .u64 [true] [10] [30] fun p => (o p).1) ∧
    ¬ Network.Settles nextParty (fun p => conditionallySwapDistancesPlainIds .u64 ⟨p, 0⟩ [Rep3.view p ![1, 0, 0]]
      (plainView p (twoEntries 64)) [(0, 1)] (stepStreams p)) fun o =>
        SwapsPlainIds .u64 (twoEntries 64) [true] [(0, 1)] fun p => (o p).1 := by
  constructor
  · intro h
    have hle := (selectPlainIds_iff (t := .u64) (by decide) 0 (by rfl) (by rfl) (sharesOf_one 64)
      lockstep_stepStreams).mp h
    simp at hle
  · intro h
    have hfits := (swapPlainIds_iff (t := .u64) (by decide) 0 (by rfl) (by decide) (by simp) sharesBits_one
      lockstep_stepStreams).mp h (true, 0, 1) (by decide)
    rcases hfits with hring | ⟨-, hle⟩
    · cases hring
    · have hids : idAt (twoEntries 64) 0 = 10 ∧ idAt (twoEntries 64) 1 = 30 := ⟨rfl, rfl⟩
      have hge : (idAt (twoEntries 64) 1).toNat ≤ (idAt (twoEntries 64) 0).toNat := hle rfl
      rw [hids.1, hids.2] at hge
      simp at hge

end AmpcCommon.Protocol
