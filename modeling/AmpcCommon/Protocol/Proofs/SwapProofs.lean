import AmpcCommon.Protocol.Swap
import AmpcCommon.Protocol.Proofs.PlainIdsProofs
import AmpcCommon.Protocol.Proofs.TotalityProofs

/-!
# Swaps of entries, proofs

The opened entries are those before with the pairs exchanged whose bit is zero (`exchanged`): the first entry of a pair
is selected by the bit, and the second one is the sum of both without the selected one (`restTriple`). The exchange is
a permutation of the entries (`exchanged_perm`), and the swap with public ids leaves the same one in the ring with 32
bits.
-/

namespace AmpcCommon.Protocol

/-! ## The exchange -/

section Exchange

variable {α : Type}

/-- The list with the elements of every pair exchanged whose bit is zero. -/
def exchanged (d : α) (bs : List Bool) (is : List (Nat × Nat)) (xs : List α) : List α :=
  pairLoop (fun b i => if b then xs.getD i.1 d else xs.getD i.2 d)
    (fun b i => if b then xs.getD i.2 d else xs.getD i.1 d) bs is xs

theorem getElem?_ite_of_lt {xs : List α} {d : α} {b : Bool} {m n : Nat} (hm : m < xs.length) (hn : n < xs.length) :
    some (if b then xs.getD m d else xs.getD n d) = xs[if b then m else n]? := by
  cases b with
  | false => exact (List.getD_eq_getElem xs d hn ▸ List.getElem?_eq_getElem hn).symm
  | true => exact (List.getD_eq_getElem xs d hm ▸ List.getElem?_eq_getElem hm).symm

/-- The elements of a pair stay where they are if the bit is one, and are exchanged if it is zero. -/
theorem exchanged_pairs {d : α} {bs : List Bool} {is : List (Nat × Nat)} {xs : List α}
    (hdisjoint : is.Pairwise DisjointPairs) (hbound : ∀ i ∈ is, i.1 < xs.length ∧ i.2 < xs.length) :
    ∀ x ∈ bs.zip is, (exchanged d bs is xs)[x.2.1]? = xs[if x.1 then x.2.1 else x.2.2]? ∧
      (exchanged d bs is xs)[x.2.2]? = xs[if x.1 then x.2.2 else x.2.1]? := by
  intro x hx
  obtain ⟨h1, h2⟩ := hbound x.2 (List.of_mem_zip hx).2
  obtain ⟨hfirst, hsecond⟩ := pairLoop_pairs (fun b i => if b then xs.getD i.1 d else xs.getD i.2 d)
    (fun b i => if b then xs.getD i.2 d else xs.getD i.1 d) hdisjoint hbound x hx
  rw [getElem?_ite_of_lt h2 h1] at hsecond
  refine ⟨?_, hsecond⟩
  by_cases hsame : x.2.1 = x.2.2
  · rw [hsame, ite_self] at hsecond ⊢
    exact hsecond
  · rw [if_neg hsame, getElem?_ite_of_lt h1 h2] at hfirst
    exact hfirst

/-- A pair is written back, in the order of its bit. -/
theorem set_pair_perm {l : List α} {d : α} (b : Bool) {m n : Nat} (hm : m < l.length) (hn : n < l.length) :
    ((l.set m (if b then l.getD m d else l.getD n d)).set n (if b then l.getD n d else l.getD m d)).Perm l := by
  rw [List.getD_eq_getElem l d hm, List.getD_eq_getElem l d hn]
  cases b with
  | false => exact List.set_set_perm hm hn
  | true =>
    simp only [if_true]
    rw [List.set_getElem_self, List.set_getElem_self]

theorem pairLoop_perm {d : α} {xs : List α} (bs : List Bool) {is : List (Nat × Nat)} {l : List α}
    (hdisjoint : is.Pairwise DisjointPairs) (hbound : ∀ i ∈ is, i.1 < l.length ∧ i.2 < l.length)
    (hsame : ∀ i ∈ is, l.getD i.1 d = xs.getD i.1 d ∧ l.getD i.2 d = xs.getD i.2 d) :
    (pairLoop (fun b i => if b then xs.getD i.1 d else xs.getD i.2 d)
      (fun b i => if b then xs.getD i.2 d else xs.getD i.1 d) bs is l).Perm l := by
  induction is generalizing bs l with
  | nil => rw [pairLoop_nil]
  | cons i is ih =>
    cases bs with
    | nil => exact List.Perm.refl l
    | cons b bs =>
      obtain ⟨hfirst, hrest⟩ := List.pairwise_cons.mp hdisjoint
      obtain ⟨h1, h2⟩ := hbound i List.mem_cons_self
      obtain ⟨hx1, hx2⟩ := hsame i List.mem_cons_self
      rw [pairLoop, ← hx1, ← hx2]
      refine List.Perm.trans (ih bs hrest ?_ ?_) (set_pair_perm b h1 h2)
      · intro k hk
        rw [List.length_set, List.length_set]
        exact hbound k (List.mem_cons_of_mem _ hk)
      · -- the later pairs are apart from this one
        intro k hk
        obtain ⟨h11, h12, h21, h22⟩ := hfirst k hk
        simp only [List.getD_eq_getElem?_getD, List.getElem?_set_ne h11, List.getElem?_set_ne h12,
          List.getElem?_set_ne h21, List.getElem?_set_ne h22]
        simp only [← List.getD_eq_getElem?_getD]
        exact hsame k (List.mem_cons_of_mem _ hk)

theorem exchanged_perm (d : α) (bs : List Bool) {is : List (Nat × Nat)} {xs : List α}
    (hdisjoint : is.Pairwise DisjointPairs) (hbound : ∀ i ∈ is, i.1 < xs.length ∧ i.2 < xs.length) :
    (exchanged d bs is xs).Perm xs :=
  pairLoop_perm bs hdisjoint hbound fun _ _ => ⟨rfl, rfl⟩

end Exchange

/-! ## Entries -/

section Sharings

variable {K : Nat}

/-- The components of a field of an entry. -/
def tripleField (x : Triple K) : Nat → Rep3 K
  | 0 => x.1
  | 1 => x.2.1
  | _ => x.2.2

theorem viewTriple_getD (p : Party) (zs : List (Triple K)) (n : Nat) :
    (zs.map (viewTriple p)).getD n (0, ⟨0, 0⟩) = viewTriple p (zs.getD n (0, 0, 0)) := by
  rw [List.getD_eq_getElem?_getD, List.getD_eq_getElem?_getD, List.getElem?_map]
  cases zs[n]? <;> rfl

theorem entryField_eq (p : Party) (zs : List (Triple K)) {indices : List (Nat × Nat)} {j : Nat}
    (hj : j < indices.length) (f : Nat) : entryField (zs.map (viewTriple p)) indices j f =
      ((tripleField (zs.getD indices[j].1 (0, 0, 0)) f).view p,
        (tripleField (zs.getD indices[j].2 (0, 0, 0)) f).view p) := by
  unfold entryField
  rw [List.getElem?_eq_getElem hj]
  simp only [viewTriple_getD]
  match f with
  | 0 => rfl
  | 1 => rfl
  | _ + 2 => rfl

/-- The components of the entry that is left of a pair. -/
def restTriple (zs : List (Triple K)) (x : Triple K) (i : Nat × Nat) : Triple K :=
  (fun r => (zs.getD i.1 (0, 0, 0)).1 r + (zs.getD i.2 (0, 0, 0)).1 r - x.1 r,
    restDistance ((zs.getD i.1 (0, 0, 0)).2, (zs.getD i.2 (0, 0, 0)).2) x.2)

/-- A chunk of the selected fields. -/
def chunkView (p : Party) (x : Triple K) : List (Share K) := [x.1.view p, x.2.1.view p, x.2.2.view p]

/-- The loop, as a loop over index pairs. -/
theorem swapEntries_view (p : Party) (zs ts : List (Triple K)) (indices : List (Nat × Nat)) (l : List (Triple K)) :
    swapEntries (zs.map (viewTriple p)) (ts.map (chunkView p)) indices (l.map (viewTriple p)) =
      (pairLoop (fun x _ => x) (restTriple zs) ts indices l).map (viewTriple p) := by
  induction indices generalizing ts l with
  | nil =>
    rw [pairLoop_nil]
    cases ts <;> rfl
  | cons i indices ih =>
    cases ts with
    | nil => rfl
    | cons x ts =>
      simp only [List.map_cons, swapEntries, pairLoop, viewTriple_getD]
      rw [← ih, List.map_set, List.map_set]
      rfl

theorem getD_openTriple (zs : List (Triple K)) (n : Nat) :
    openTriple (zs.getD n (0, 0, 0)) = (zs.map openTriple).getD n (0, 0, 0) := by
  rw [List.getD_eq_getElem?_getD, List.getD_eq_getElem?_getD, List.getElem?_map]
  cases zs[n]? with
  | some z => rfl
  | none =>
    have hzero : (0 : Rep3 K).sum = 0 := by simp [Rep3.sum]
    exact Prod.ext hzero (Prod.ext hzero hzero)

/-- The opened entry that is left of a pair. -/
def restOpened (xs : List (BitVec K × BitVec K × BitVec K)) (v : BitVec K × BitVec K × BitVec K) (i : Nat × Nat) :
    BitVec K × BitVec K × BitVec K :=
  ((xs.getD i.1 (0, 0, 0)).1 + (xs.getD i.2 (0, 0, 0)).1 - v.1,
    restValue (xs.getD i.1 (0, 0, 0)).2 (xs.getD i.2 (0, 0, 0)).2 v.2)

theorem open_restTriple (zs : List (Triple K)) (x : Triple K) (i : Nat × Nat) :
    openTriple (restTriple zs x i) = restOpened (zs.map openTriple) (openTriple x) i := by
  unfold restOpened
  rw [← getD_openTriple, ← getD_openTriple]
  exact Prod.ext (sum_add_sub _ _ _) (value_restDistance _ _)

/-- The entry that is left of a pair is the other one. -/
theorem restOpened_select (xs : List (BitVec K × BitVec K × BitVec K)) (b : Bool) (i : Nat × Nat) :
    restOpened xs (if b then xs.getD i.1 (0, 0, 0) else xs.getD i.2 (0, 0, 0)) i =
      if b then xs.getD i.2 (0, 0, 0) else xs.getD i.1 (0, 0, 0) := by
  unfold restOpened
  cases b with
  | false => exact Prod.ext (add_sub_cancel_right _ _) (restValue_select false _ _)
  | true => exact Prod.ext (add_sub_cancel_left _ _) (restValue_select true _ _)

/-- What the loop leaves, opened. -/
theorem open_swapped {zs ts : List (Triple K)} {bs : List Bool} {indices : List (Nat × Nat)}
    (hts : ts.map openTriple = List.zipWith (fun b i =>
      if b then (zs.map openTriple).getD i.1 (0, 0, 0) else (zs.map openTriple).getD i.2 (0, 0, 0)) bs indices) :
    (pairLoop (fun x _ => x) (restTriple zs) ts indices zs).map openTriple =
      exchanged (0, 0, 0) bs indices (zs.map openTriple) := by
  have hopen : List.Forall₂ (fun x v => openTriple x = v) ts (ts.map openTriple) := by
    rw [List.forall₂_map_right_iff]
    exact List.forall₂_same.mpr fun _ _ => rfl
  have hmap : (pairLoop (fun x _ => x) (restTriple zs) ts indices zs).map openTriple =
      pairLoop (fun v _ => v) (restOpened (zs.map openTriple)) (ts.map openTriple) indices (zs.map openTriple) := by
    refine map_pairLoop ?_ ?_ hopen indices zs
    · rintro x v i rfl
      rfl
    · rintro x v i rfl
      exact open_restTriple zs x i
  rw [hmap, hts, pairLoop_zipWith]
  simp only [restOpened_select]
  rfl

end Sharings

/-! ## The program -/

theorem chunks_three {α : Type} {l : List α} {n : Nat} (h : l.length = n * 3) (d : α) :
    chunks 3 l = (List.range n).map fun j => [l.getD (j * 3) d, l.getD (j * 3 + 1) d, l.getD (j * 3 + 2) d] := by
  have hn : (l.length + 3 - 1) / 3 = n := by omega
  unfold chunks
  rw [hn]
  refine List.map_congr_left fun j hj => ?_
  have hlt : j < n := List.mem_range.mp hj
  have h0 : j * 3 < l.length := by omega
  have h1 : j * 3 + 1 < l.length := by omega
  have h2 : j * 3 + 2 < l.length := by omega
  rw [Nat.mul_comm 3 j, List.drop_eq_getElem_cons h0, List.drop_eq_getElem_cons h1, List.drop_eq_getElem_cons h2,
    List.getD_eq_getElem _ _ h0, List.getD_eq_getElem _ _ h1, List.getD_eq_getElem _ _ h2]
  rfl

variable {R : Type} [Rng R] {t : RingTy}

/-- The entries that the swap leaves: the first one of a pair is selected, and the second one is what is left. -/
theorem conditionallySwapDistances_succeeds (sid : BitVec 32) {zs : List (Triple t.bits)} {indices : List (Nat × Nat)}
    {bs : List Bool} (hbs : bs.length = indices.length) (hbound : ∀ i ∈ indices, i.1 < zs.length ∧ i.2 < zs.length)
    {v : Party → List (IdDistance t.bits)} (hv : ∀ p, v p = zs.map (viewTriple p)) {b : Party → List (Share 1)}
    (hb : SharesBits b (bs.map BitVec.ofBool)) :
    Succeeds (fun p => (conditionallySwapDistances t ⟨p, sid⟩ (b p) (v p) indices : Proc R _)) fun r =>
      ∃ ts : List (Triple t.bits),
        (∀ p, r p = (pairLoop (fun x _ => x) (restTriple zs) ts indices zs).map (viewTriple p)) ∧
        (pairLoop (fun x _ => x) (restTriple zs) ts indices zs).map openTriple =
          exchanged (0, 0, 0) bs indices (zs.map openTriple) := by
  have hview : ∀ p, (v p).length = zs.length := by
    intro p
    rw [hv p, List.length_map]
  have hlen : ∀ p, ¬ (b p).length ≠ indices.length := by
    intro p
    rw [hb.length, List.length_map]
    exact not_not.mpr hbs
  simp only [conditionallySwapDistances, hview, find_outOfBounds_none hbound, if_neg (hlen _)]
  refine (bitInject_sharesOf sid hb).bind fun c hc => ?_
  rw [setWidth_ofBool_indicator] at hc
  have hcn : ∀ p, (c p).length = indices.length := by
    intro p
    rw [hc.length, List.length_map, hbs]
  refine (reshareMux_succeeds (by decide) (fun p => (hcn p).ge) _).bind fun selected hselected => Succeeds.pure ?_
  obtain ⟨ps, hpn, hps, hsum⟩ := hselected.exists_components
  obtain ⟨cs, hcs, hbits⟩ := hc
  refine ⟨(List.range indices.length).map fun j => (ps.getD (j * 3) 0, ps.getD (j * 3 + 1) 0, ps.getD (j * 3 + 2) 0),
    fun p => ?_, open_swapped ?_⟩
  · have hchunks : chunks 3 (selected p) = ((List.range indices.length).map fun j =>
        ((ps.getD (j * 3) 0, ps.getD (j * 3 + 1) 0, ps.getD (j * 3 + 2) 0) : Triple t.bits)).map (chunkView p) := by
      rw [chunks_three (by rw [hps p, List.length_map, hpn]) 0, List.map_map]
      simp only [hps.getD]
      rfl
    show swapEntries (v p) (chunks 3 (selected p)) indices (v p) = _
    rw [hchunks, hv p, swapEntries_view]
  · have hcslen : cs.length = indices.length := by
      have hlengths := congrArg List.length hbits
      rw [List.length_map, List.length_map] at hlengths
      exact hlengths.trans hbs
    refine List.ext_getElem (by simp [hbs]) fun j hj hj' => ?_
    have hlt : j < indices.length := by simpa using hj
    have hjc : j < cs.length := hcslen.symm ▸ hlt
    have hjb : j < bs.length := hbs.symm ▸ hlt
    have hbit : cs[j].sum = indicator t.bits bs[j] := by
      have hget := congrArg (fun l => l.getD j 0) hbits
      rw [getD_map_of_lt hjc, getD_map_of_lt hjb] at hget
      exact hget
    have hfield : ∀ f, f < 3 → (ps.getD (j * 3 + f) 0).sum =
        (tripleField (zs.getD (if bs[j] then indices[j].1 else indices[j].2) (0, 0, 0)) f).sum := by
      intro f hf
      rw [hsum _ (by omega), sum_muxExpr_field (g := fun p => entryField (v p) indices) hcs
        (fun p => (hv p).symm ▸ entryField_eq p zs hlt f) hjc hf, hbit]
      cases bs[j] with
      | false =>
        show 0 * _ + _ = _
        rw [zero_mul, zero_add]
        rfl
      | true =>
        show 1 * _ + _ = _
        rw [one_mul, sub_add_cancel]
        rfl
    simp only [List.getElem_map, List.getElem_range, List.getElem_zipWith, ← getD_openTriple]
    rw [← apply_ite openTriple, ← apply_ite fun n => zs.getD n (0, 0, 0)]
    exact Prod.ext (hfield 0 (by decide)) (Prod.ext (hfield 1 (by decide)) (hfield 2 (by decide)))

/-- Lists of different lengths and indices out of bounds are errors. -/
theorem conditionallySwapDistances_bails (sid : BitVec 32) {n m : Nat} {indices : List (Nat × Nat)}
    {v : Party → List (IdDistance t.bits)} (hv : ∀ p, (v p).length = n) {b : Party → List (Share 1)}
    (hb : ∀ p, (b p).length = m) (hinvalid : m ≠ indices.length ∨ ∃ i ∈ indices, n ≤ i.1 ∨ n ≤ i.2) :
    Ends (fun p => (conditionallySwapDistances t ⟨p, sid⟩ (b p) (v p) indices : Proc R _)) fun o =>
      ∀ p, ∃ e, o p = .bail e := by
  have hprog : ∀ p, ∃ e,
      (conditionallySwapDistances t ⟨p, sid⟩ (b p) (v p) indices : Proc R _) = Proc.lift (.bail e) := by
    intro p
    unfold conditionallySwapDistances
    by_cases hlen : (b p).length ≠ indices.length
    · rw [if_pos hlen]
      exact ⟨_, rfl⟩
    · rw [if_neg hlen]
      rcases hinvalid with hm | ⟨i, hi, hout⟩
      · exact absurd (hb p ▸ hm) hlen
      · split
        next i hfind => exact ⟨_, rfl⟩
        next hfind =>
          have hin := List.find?_eq_none.mp hfind i hi
          rw [hv p] at hin
          exact absurd (decide_eq_true hout) hin
  choose e he using hprog
  simp only [he]
  exact Ends.lift fun p => ⟨_, rfl⟩

/-! ## Public ids in the ring with 32 bits -/

theorem getD_openPlain (entries : List (BitVec 32 × Rep3Distance 32)) (n : Nat) :
    (entries.map fun e => (e.1, e.2.value)).getD n (0, 0, 0) = (idAt entries n, (distanceAt entries n).value) := by
  unfold idAt distanceAt
  rw [List.getD_eq_getElem?_getD, List.getD_eq_getElem?_getD, List.getD_eq_getElem?_getD, List.getElem?_map,
    List.getElem?_map]
  cases entries[n]? with
  | some e => rfl
  | none => rfl

/-- In the ring with 32 bits the swap with public ids leaves the exchanged entries. -/
theorem swappedEntries_eq_exchanged (entries : List (BitVec 32 × Rep3Distance 32)) (bs : List Bool)
    (indices : List (Nat × Nat)) :
    swappedEntries 32 entries bs indices = exchanged (0, 0, 0) bs indices (entries.map fun e => (e.1, e.2.value)) := by
  have hids : ∀ b (x y : BitVec 32), firstValue 32 b x y = (if b then x else y) ∧
      secondValue 32 b x y = if b then y else x := by
    intro b x y
    obtain ⟨hfirst, hsecond⟩ := (pairValues_eq_iff (t := .u32) (by decide) b x y).mpr (Or.inl rfl)
    exact ⟨hfirst.trans (BitVec.setWidth_eq _), hsecond.trans (BitVec.setWidth_eq _)⟩
  have hpromoted : (entries.map fun e => (fromU32 32 e.1, e.2.value)) = entries.map fun e => (e.1, e.2.value) :=
    List.map_congr_left fun e _ => Prod.ext (BitVec.setWidth_eq e.1) rfl
  unfold swappedEntries exchanged
  rw [hpromoted]
  simp only [hids, getD_openPlain]
  congr 1
  · funext b i
    cases b <;> rfl
  · funext b i
    cases b <;> rfl

variable {σ : Party → Prf R}

/-- The calls settle, and the parties hold shares of the entries. -/
def SettlesOn (x : Party → Proc R (List (IdDistance t.bits))) (σ : Party → Prf R)
    (xs : List (BitVec t.bits × BitVec t.bits × BitVec t.bits)) : Prop :=
  Network.Settles nextParty (fun p => x p (σ p)) fun o => ∃ r, (∀ p, (o p).1 = .ok (r p)) ∧ EntriesOf r xs

/-- **Oblivious swaps.** At disjoint pairs of indices within the bounds, the entries of a pair stay where they are if
its bit is one and are exchanged if it is zero; all other positions keep their shares, and the opened entries are
permuted. Lists of different lengths and indices out of bounds are errors. In the ring with 32 bits the swap with public
ids opens to the same entries. -/
theorem conditionallySwapDistances_correct (sid : BitVec 32) (hσ : Lockstep σ) :
    (∀ (t : RingTy) (xs : List (BitVec t.bits × BitVec t.bits × BitVec t.bits)) (v : Party → List (IdDistance t.bits))
      (bs : List Bool) (b : Party → List (Share 1)) (indices : List (Nat × Nat)), EntriesOf v xs →
      SharesBits b (bs.map BitVec.ofBool) → bs.length = indices.length → indices.Pairwise DisjointPairs →
      (∀ i ∈ indices, i.1 < xs.length ∧ i.2 < xs.length ∧ i.1 ≠ i.2) →
      (Network.Settles nextParty (fun p => conditionallySwapDistances t ⟨p, sid⟩ (b p) (v p) indices (σ p)) fun o =>
        ∃ r ys, (∀ p, (o p).1 = .ok (r p)) ∧ EntriesOf r ys ∧
          (∀ x ∈ bs.zip indices, ys[x.2.1]? = xs[if x.1 then x.2.1 else x.2.2]? ∧
            ys[x.2.2]? = xs[if x.1 then x.2.2 else x.2.1]?) ∧
          (∀ n, (∀ i ∈ indices, i.1 ≠ n ∧ i.2 ≠ n) → ∀ p, (r p)[n]? = (v p)[n]?) ∧
          ys.Perm xs)) ∧
    (∀ (t : RingTy) (n m : Nat) (indices : List (Nat × Nat)) (v : Party → List (IdDistance t.bits))
      (b : Party → List (Share 1)), (∀ p, (v p).length = n) → (∀ p, (b p).length = m) →
      (m ≠ indices.length ∨ ∃ i ∈ indices, n ≤ i.1 ∨ n ≤ i.2) →
      Network.Settles nextParty (fun p => conditionallySwapDistances t ⟨p, sid⟩ (b p) (v p) indices (σ p)) fun o =>
        ∀ p, ∃ e, (o p).1 = .bail e) ∧
    (∀ (entries : List (BitVec 32 × Rep3Distance 32)) (v : Party → List (IdDistance 32)) (bs : List Bool)
      (b b' : Party → List (Share 1)) (indices : List (Nat × Nat)) (σ' : Party → Prf R), Lockstep σ' →
      EntriesOf v (entries.map fun e => (e.1, e.2.value)) → SharesBits b (bs.map BitVec.ofBool) →
      SharesBits b' (bs.map BitVec.ofBool) → bs.length = indices.length → indices.Pairwise DisjointPairs →
      (∀ i ∈ indices, i.1 < entries.length ∧ i.2 < entries.length ∧ i.1 ≠ i.2) →
      ∃ ys, SettlesOn (t := .u32) (fun p => conditionallySwapDistances .u32 ⟨p, sid⟩ (b p) (v p) indices) σ ys ∧
        SettlesOn (t := .u32)
          (fun p => conditionallySwapDistancesPlainIds .u32 ⟨p, sid⟩ (b' p) (plainView p entries) indices) σ' ys) := by
  refine ⟨?_, ?_, ?_⟩
  · intro t xs v bs b indices hv hb hbs hdisjoint hin
    obtain ⟨zs, hz, rfl⟩ := hv
    have hbound : ∀ i ∈ indices, i.1 < (zs.map openTriple).length ∧ i.2 < (zs.map openTriple).length :=
      fun i hi => ⟨(hin i hi).1, (hin i hi).2.1⟩
    have hboundz : ∀ i ∈ indices, i.1 < zs.length ∧ i.2 < zs.length := by
      intro i hi
      have hlt := hbound i hi
      rwa [List.length_map] at hlt
    obtain ⟨r, _, hjoint, -, ts, hr, hopen⟩ :=
      conditionallySwapDistances_succeeds (R := R) sid hbs hboundz hz hb σ hσ
    refine hjoint.settles ⟨r, _, fun p => rfl, ⟨_, hr, hopen⟩, exchanged_pairs hdisjoint hbound, ?_,
      exchanged_perm _ bs hdisjoint hbound⟩
    intro n hn p
    rw [hr p, hz p, List.getElem?_map, List.getElem?_map, pairLoop_getElem? _ _ _ _ _ hn]
  · intro t n m indices v b hv hb hinvalid
    exact (conditionallySwapDistances_bails sid hv hb hinvalid).settles hσ
  · intro entries v bs b b' indices σ' hσ' hv hb hb' hbs hdisjoint hin
    refine ⟨exchanged (0, 0, 0) bs indices (entries.map fun e => (e.1, e.2.value)), ?_, ?_⟩
    · obtain ⟨zs, hz, hopened⟩ := hv
      have hcount : zs.length = entries.length := by
        have hlengths := congrArg List.length hopened
        rwa [List.length_map, List.length_map] at hlengths
      obtain ⟨r, _, hjoint, -, ts, hr, hopen⟩ := conditionallySwapDistances_succeeds (R := R) (t := .u32) sid hbs
        (fun i hi => hcount.symm ▸ ⟨(hin i hi).1, (hin i hi).2.1⟩) hz hb σ hσ
      exact hjoint.settles ⟨r, fun p => rfl, _, hr, hopen.trans (congrArg _ hopened)⟩
    · obtain ⟨r, _, hjoint, -, hr⟩ := conditionallySwapDistancesPlainIds_entries (R := R) (t := .u32) sid hbs
        (fun i hi => ⟨(hin i hi).1, (hin i hi).2.1⟩) hb' σ' hσ'
      exact hjoint.settles ⟨r, fun p => rfl, swappedEntries_eq_exchanged entries bs indices ▸ hr⟩

/-- Three entries with public ids; the first and the last one are swapped. -/
def threeEntries : List (BitVec 32 × Rep3Distance 32) :=
  [(10, ![1, 2, 3], ![4, 5, 6]), (20, ![7, 8, 9], ![1, 1, 1]), (30, ![0, 0, 5], ![2, 0, 2])]

/-- The same entries with shared ids. -/
def threeShared (p : Party) : List (IdDistance 32) :=
  threeEntries.map fun e => viewTriple p (![e.1 - 1, 1, 0], e.2)

theorem entriesOf_threeShared : EntriesOf threeShared (threeEntries.map fun e => (e.1, e.2.value)) := by
  refine ⟨threeEntries.map fun e => (![e.1 - 1, 1, 0], e.2), fun p => ?_, ?_⟩
  · rw [List.map_map]
    rfl
  · rw [List.map_map]
    refine List.map_congr_left fun e _ => Prod.ext ?_ rfl
    show e.1 - 1 + 1 + 0 = e.1
    ring

theorem sharesBits_zero : SharesBits (fun p => [Rep3.view p ![1, 1, 0]]) ([false].map BitVec.ofBool) :=
  ⟨[![1, 1, 0]], fun _ => rfl, rfl⟩

theorem conditionallySwapDistances_correct_three :
    (Network.Settles nextParty (fun p => conditionallySwapDistances .u32 ⟨p, 1⟩ [Rep3.view p ![1, 1, 0]] (threeShared p)
        [(0, 2)] (stepStreams p)) fun o =>
      ∃ r ys, (∀ p, (o p).1 = .ok (r p)) ∧ EntriesOf r ys ∧ ys[0]? = some (30, 5, 4) ∧ ys[2]? = some (10, 6, 15)) ∧
    Network.Settles nextParty (fun p => conditionallySwapDistances .u32 ⟨p, 1⟩ [Rep3.view p ![1, 1, 0]] (threeShared p)
      [(0, 3)] (stepStreams p)) fun o => ∀ p, ∃ e, (o p).1 = .bail e := by
  obtain ⟨hswap, herr, -⟩ := conditionallySwapDistances_correct 1 lockstep_stepStreams
  constructor
  · refine (hswap .u32 _ threeShared [false] _ [(0, 2)] entriesOf_threeShared sharesBits_zero rfl (by simp)
      (by decide)).mono ?_
    rintro o ⟨r, ys, hr, hys, hpairs, -, -⟩
    obtain ⟨hfirst, hlast⟩ := hpairs (false, 0, 2) (by decide)
    exact ⟨r, ys, hr, hys, hfirst, hlast⟩
  · exact herr .u32 3 1 [(0, 3)] threeShared _ (fun _ => rfl) (fun _ => rfl)
      (Or.inr ⟨(0, 3), by decide, Or.inr (by decide)⟩)

end AmpcCommon.Protocol
