import AmpcCommon.Protocol.Binary
import AmpcCommon.Protocol.Proofs.JointProofs

/-!
# AND gates, proofs

An AND gate on shares: the local products and the masks add up to the product of the secrets, and the
exchange of the local parts makes the result a consistent sharing, whatever the inputs are (`IsAnd`). Gates on
several vectors at once do this for every vector (`IsAndPlanes`).
-/

namespace AmpcCommon.Protocol

variable {K : Nat}

/-! ## Consistent sharings of vectors -/

/-- The parties hold the vectors `v`, consistently replicated, of the shared secrets `xs`. -/
def Shares (v : Party → List (Share K)) (xs : List (Rep3 K)) : Prop := ∀ p, v p = xs.map (Rep3.view p)

/-- The same for a list of vectors. -/
def SharesPlanes (v : Party → List (List (Share K))) (xss : List (List (Rep3 K))) : Prop :=
  ∀ p, v p = xss.map (List.map (Rep3.view p))

/-- The secrets of a list of binary sharings. -/
def opened (xss : List (List (Rep3 K))) : List (List (BitVec K)) := xss.map (List.map Rep3.xor)

/-- The components the parties have computed, put together. -/
def joinParts (n : Nat) (loc : Party → List (BitVec K)) : List (Rep3 K) :=
  (List.range n).map fun k p => (loc p).getD k 0

@[simp] theorem length_joinParts (n : Nat) (loc : Party → List (BitVec K)) :
    (joinParts n loc).length = n := by
  simp [joinParts]

theorem map_joinParts {n : Nat} {loc : Party → List (BitVec K)} (hloc : ∀ p, (loc p).length = n) (p : Party) :
    (joinParts n loc).map (fun x => x p) = loc p := by
  refine List.ext_getElem (by simp [hloc]) fun k hk hk' => ?_
  simp [joinParts, hk']

theorem fromAb_map (xs : List (Rep3 K)) (p q : Party) :
    fromAb (xs.map fun x => x p) (xs.map fun x => x q) = xs.map fun x => ⟨x p, x q⟩ := by
  induction xs with
  | nil => rfl
  | cons x xs ih =>
    show _ :: fromAb _ _ = _
    rw [ih]
    rfl

/-- When every party hands its part to the next one, the result is consistently replicated. -/
theorem shares_fromAb {n : Nat} {loc : Party → List (BitVec K)} (hloc : ∀ p, (loc p).length = n) :
    Shares (fun p => fromAb (loc p) (loc (p - 1))) (joinParts n loc) := by
  intro p
  show fromAb (loc p) (loc (p - 1)) = _
  rw [← map_joinParts hloc p, ← map_joinParts hloc (p - 1), fromAb_map]
  rfl

theorem Shares.length {v : Party → List (Share K)} {xs : List (Rep3 K)} (h : Shares v xs) (p : Party) :
    (v p).length = xs.length := by
  rw [h p, List.length_map]

/-! ## One gate -/

/-- The parties' parts of the AND of two secrets, masked with a share of zero. -/
def andRep3 (mine x y : Rep3 K) : Rep3 K := fun p =>
  (x.view p).and (y.view p) ^^^ (mine p ^^^ mine (p - 1))

theorem bool_and_parts : ∀ x0 x1 x2 y0 y1 y2 m0 m1 m2 : Bool,
    ((((x0 && y0) ^^ (x2 && y0) ^^ (x0 && y2)) ^^ (m0 ^^ m2)) ^^
      (((x1 && y1) ^^ (x0 && y1) ^^ (x1 && y0)) ^^ (m1 ^^ m0)) ^^
      (((x2 && y2) ^^ (x1 && y2) ^^ (x2 && y1)) ^^ (m2 ^^ m1))) =
    ((x0 ^^ x1 ^^ x2) && (y0 ^^ y1 ^^ y2)) := by
  decide

/-- The masks cancel, and the local products are all nine products of the components. -/
theorem xor_andRep3 (mine x y : Rep3 K) : (andRep3 mine x y).xor = x.xor &&& y.xor := by
  refine BitVec.eq_of_getLsbD_eq fun i _ => ?_
  have h0 : (0 : Party) - 1 = 2 := by decide
  have h1 : (1 : Party) - 1 = 0 := by decide
  have h2 : (2 : Party) - 1 = 1 := by decide
  simp only [andRep3, Rep3.xor, Share.and, Rep3.view, h0, h1, h2, BitVec.getLsbD_xor, BitVec.getLsbD_and]
  exact bool_and_parts _ _ _ _ _ _ _ _ _

/-- The result `r` of an AND gate on the vectors `a` and `b`: it is consistently replicated, and its secrets
are those of `a` and `b` combined, if these are consistently replicated. -/
def IsAnd (n : Nat) (a b r : Party → List (Share K)) : Prop :=
  ∃ zs, zs.length = n ∧ Shares r zs ∧ ∀ xs ys, Shares a xs → Shares b ys →
    zs.map Rep3.xor = List.zipWith (· &&& ·) (xs.map Rep3.xor) (ys.map Rep3.xor)

theorem IsAnd.length {n : Nat} {a b r : Party → List (Share K)} (h : IsAnd n a b r) (p : Party) :
    (r p).length = n := by
  obtain ⟨zs, hn, hr, -⟩ := h
  rw [hr.length, hn]

/-- What the party `p` computes locally. -/
def gatePart (a b : Party → List (Share K)) (mine : Party → List (BitVec K)) (p : Party) :
    List (BitVec K) :=
  maskedAnd (a p) (b p) (mine p) (mine (p - 1))

section Gate

variable {n : Nat} {a b : Party → List (Share K)} {mine : Party → List (BitVec K)}

theorem length_gatePart (ha : ∀ p, (a p).length = n) (hb : ∀ p, (b p).length = n)
    (hmine : ∀ p, (mine p).length = n) (p : Party) : (gatePart a b mine p).length = n := by
  simp [gatePart, maskedAnd, ha, hb, hmine]

theorem xor_joinParts (ha : ∀ p, (a p).length = n) (hb : ∀ p, (b p).length = n)
    (hmine : ∀ p, (mine p).length = n) {xs ys : List (Rep3 K)} (hx : Shares a xs) (hy : Shares b ys) :
    (joinParts n (gatePart a b mine)).map Rep3.xor =
      List.zipWith (· &&& ·) (xs.map Rep3.xor) (ys.map Rep3.xor) := by
  have hxn : xs.length = n := by rw [← hx.length 0, ha]
  have hyn : ys.length = n := by rw [← hy.length 0, hb]
  refine List.ext_getElem (by simp [hxn, hyn]) fun k hk hk' => ?_
  have hkn : k < n := by simpa using hk
  have hkx : k < xs.length := by omega
  have hky : k < ys.length := by omega
  have hpart : (fun p => (gatePart a b mine p).getD k 0) =
      andRep3 (fun p => (mine p).getD k 0) xs[k] ys[k] := by
    funext p
    have hkm : ∀ q, k < (mine q).length := fun q => by rw [hmine]; exact hkn
    simp [gatePart, maskedAnd, andRep3, hx p, hy p, hkx, hky, hkm]
  simp only [joinParts, List.map_map, List.getElem_map, List.getElem_range, List.getElem_zipWith,
    Function.comp_apply]
  rw [hpart, xor_andRep3]

theorem isAnd_gatePart (ha : ∀ p, (a p).length = n) (hb : ∀ p, (b p).length = n)
    (hmine : ∀ p, (mine p).length = n) :
    IsAnd n a b fun p => fromAb (gatePart a b mine p) (gatePart a b mine (p - 1)) :=
  ⟨_, length_joinParts n _, shares_fromAb (length_gatePart ha hb hmine),
    fun _ _ hx hy => xor_joinParts ha hb hmine hx hy⟩

end Gate

/-! ## Gates on several vectors -/

/-- Cut a list into groups of the given sizes. -/
def groups {α : Type} : List Nat → List α → List (List α)
  | [], _ => []
  | l :: ls, xs => xs.take l :: groups ls (xs.drop l)

section Groups

variable {α β γ : Type}

theorem groups_map (f : α → β) (sizes : List Nat) (xs : List α) :
    groups sizes (xs.map f) = (groups sizes xs).map (List.map f) := by
  induction sizes generalizing xs with
  | nil => rfl
  | cons l ls ih =>
    simp only [groups, List.map_cons]
    rw [← List.map_take, ← List.map_drop, ih]

theorem map_length_groups {sizes : List Nat} {xs : List α} (h : sizes.sum ≤ xs.length) :
    (groups sizes xs).map List.length = sizes := by
  induction sizes generalizing xs with
  | nil => rfl
  | cons l ls ih =>
    rw [List.sum_cons] at h
    simp only [groups, List.map_cons, List.length_take]
    rw [ih (by rw [List.length_drop]; omega), Nat.min_eq_left (by omega)]

theorem groups_zipWith_flatten (f : α → β → γ) {xss : List (List α)} {yss : List (List β)}
    (h : xss.map List.length = yss.map List.length) :
    groups (xss.map List.length) (List.zipWith f xss.flatten yss.flatten) =
      List.zipWith (List.zipWith f) xss yss := by
  induction xss generalizing yss with
  | nil => rfl
  | cons xs xss ih =>
    cases yss with
    | nil => cases h
    | cons ys yss =>
      obtain ⟨hlen, h⟩ := List.cons.inj h
      have happ : List.zipWith f (xs ++ xss.flatten) (ys ++ yss.flatten) =
          List.zipWith f xs ys ++ List.zipWith f xss.flatten yss.flatten := List.zipWith_append hlen
      have hxs : (List.zipWith f xs ys).length = xs.length := by
        rw [List.length_zipWith, ← hlen, Nat.min_self]
      simp only [List.map_cons, groups, List.flatten_cons, happ, List.zipWith_cons_cons]
      rw [← hxs, List.take_left, List.drop_left, ih h]

end Groups

theorem regroup_map (sizes : List Nat) (xs : List (Rep3 K)) (p q : Party) :
    regroup sizes (xs.map fun x => x p) (xs.map fun x => x q) =
      (groups sizes xs).map (List.map fun x => ⟨x p, x q⟩) := by
  induction sizes generalizing xs with
  | nil => rfl
  | cons l ls ih =>
    simp only [regroup, groups, List.map_cons]
    rw [← List.map_take, ← List.map_take, ← List.map_drop, ← List.map_drop, fromAb_map, ih]

/-- The result `r` of AND gates on the lists of vectors `a` and `b`. -/
def IsAndPlanes (sizes : List Nat) (a b r : Party → List (List (Share K))) : Prop :=
  ∃ zss, zss.map List.length = sizes ∧ SharesPlanes r zss ∧
    ∀ xss yss, SharesPlanes a xss → SharesPlanes b yss →
      opened zss = List.zipWith (List.zipWith (· &&& ·)) (opened xss) (opened yss)

theorem SharesPlanes.map_length {v : Party → List (List (Share K))} {xss : List (List (Rep3 K))}
    (h : SharesPlanes v xss) (p : Party) : (v p).map List.length = xss.map List.length := by
  rw [h p, List.map_map]
  exact List.map_congr_left fun xs _ => List.length_map _

theorem SharesPlanes.flatten {v : Party → List (List (Share K))} {xss : List (List (Rep3 K))}
    (h : SharesPlanes v xss) : Shares (fun p => (v p).flatten) xss.flatten := by
  intro p
  show (v p).flatten = _
  rw [h p, List.map_flatten]

theorem IsAndPlanes.map_length {sizes : List Nat} {a b r : Party → List (List (Share K))}
    (h : IsAndPlanes sizes a b r) (p : Party) : (r p).map List.length = sizes := by
  obtain ⟨zss, hsizes, hr, -⟩ := h
  rw [hr.map_length, hsizes]

theorem map_length_opened (xss : List (List (Rep3 K))) :
    (opened xss).map List.length = xss.map List.length := by
  unfold opened
  rw [List.map_map]
  exact List.map_congr_left fun xs _ => List.length_map _

section GatePlanes

variable {sizes : List Nat} {a b : Party → List (List (Share K))} {mine : Party → List (BitVec K)}

theorem length_flatten_of_sizes {v : Party → List (List (Share K))}
    (hv : ∀ p, (v p).map List.length = sizes) (p : Party) : (v p).flatten.length = sizes.sum := by
  rw [List.length_flatten, hv]

theorem isAndPlanes_regroup (ha : ∀ p, (a p).map List.length = sizes)
    (hb : ∀ p, (b p).map List.length = sizes) (hmine : ∀ p, (mine p).length = sizes.sum) :
    IsAndPlanes sizes a b fun p =>
      regroup sizes (gatePart (fun p => (a p).flatten) (fun p => (b p).flatten) mine p)
        (gatePart (fun p => (a p).flatten) (fun p => (b p).flatten) mine (p - 1)) := by
  have hlen := length_gatePart (length_flatten_of_sizes ha) (length_flatten_of_sizes hb) hmine
  refine ⟨groups sizes (joinParts sizes.sum (gatePart (fun p => (a p).flatten)
    (fun p => (b p).flatten) mine)), map_length_groups (by rw [length_joinParts]), ?_, ?_⟩
  · intro p
    show regroup sizes _ _ = _
    rw [← map_joinParts hlen p, ← map_joinParts hlen (p - 1), regroup_map]
    rfl
  · intro xss yss hx hy
    have hxs : (opened xss).map List.length = sizes := by
      rw [map_length_opened, ← hx.map_length 0, ha]
    have hys : (opened yss).map List.length = sizes := by
      rw [map_length_opened, ← hy.map_length 0, hb]
    have hflat := xor_joinParts (length_flatten_of_sizes ha) (length_flatten_of_sizes hb) hmine
      hx.flatten hy.flatten
    unfold opened
    rw [← groups_map, hflat, List.map_flatten, List.map_flatten]
    show groups sizes (List.zipWith _ (opened xss).flatten (opened yss).flatten) = _
    rw [← hxs]
    exact groups_zipWith_flatten _ (hxs.trans hys.symm)

end GatePlanes

section Programs

variable {R α : Type} [Rng R] {t : RingTy}

/-- The round of an AND gate: the parties go on with their own part and the one of the previous party. -/
theorem gate_round {n : Nat} {a b : Party → List (Share t.bits)}
    {k : Party → List (BitVec t.bits) → List (BitVec t.bits) → Proc R α} {Q : (Party → α) → Prop}
    (h : ∀ mine : Party → List (BitVec t.bits), (∀ p, (mine p).length = n) →
      Succeeds (fun p => k p (gatePart a b mine p) (gatePart a b mine (p - 1))) Q) :
    Succeeds (fun p => andManyIterSend t (a p) (b p) n >>= fun loc =>
      andManyReceive t >>= fun remote => k p loc remote) Q := by
  simp only [andManyIterSend, andManyReceive, bind_assoc, pure_bind]
  exact Succeeds.genRandsBatch fun mine hmine => Succeeds.exchangeRingVec (h mine hmine)

theorem andMany_succeeds {n : Nat} {a b : Party → List (Share t.bits)} (ha : ∀ p, (a p).length = n)
    (hb : ∀ p, (b p).length = n) :
    Succeeds (fun p => (andMany t (a p) (b p) : Proc R _)) (IsAnd n a b) := by
  have hsend : ∀ p, (andManySend t (a p) (b p) : Proc R _) = andManyIterSend t (a p) (b p) n := by
    intro p
    unfold andManySend
    rw [ha p, hb p, if_neg (not_not.mpr rfl)]
  simp only [andMany, hsend]
  exact gate_round fun mine hmine => Succeeds.pure (isAnd_gatePart ha hb hmine)

theorem transposedPackAnd_succeeds {sizes : List Nat} {a b : Party → List (List (Share t.bits))}
    (ha : ∀ p, (a p).map List.length = sizes) (hb : ∀ p, (b p).map List.length = sizes) :
    Succeeds (fun p => (transposedPackAnd t (a p) (b p) : Proc R _)) (IsAndPlanes sizes a b) := by
  have hab : ∀ p, (a p).length = (b p).length := by
    intro p
    rw [← List.length_map List.length, ha, ← hb p, List.length_map]
  have hprog : ∀ p, (transposedPackAnd t (a p) (b p) : Proc R _) =
      (andManyIterSend t (a p).flatten (b p).flatten sizes.sum >>= fun loc =>
        andManyReceive t >>= fun remote =>
          if loc.length < sizes.sum ∨ remote.length < sizes.sum then
            Proc.lift (.panicked "range end index out of range for slice")
          else pure (regroup sizes loc remote)) := by
    intro p
    unfold transposedPackAnd
    rw [if_neg (not_not.mpr (hab p)), ha p, hb p, if_neg (not_not.mpr rfl)]
  simp only [hprog]
  refine gate_round fun mine hmine => ?_
  have hlen := length_gatePart (length_flatten_of_sizes ha) (length_flatten_of_sizes hb) hmine
  simp only [hlen, lt_irrefl, or_self, if_false]
  exact Succeeds.pure (isAndPlanes_regroup ha hb hmine)

theorem andManyGrouped_succeeds {sizes : List Nat}
    {gs : Party → List (List (Share t.bits) × List (Share t.bits))}
    (hl : ∀ p, (gs p).map (fun g => g.1.length) = sizes) (hr : ∀ p, (gs p).map (fun g => g.2.length) = sizes) :
    Succeeds (fun p => (andManyGrouped t (gs p) : Proc R _))
      (IsAndPlanes sizes (fun p => (gs p).map Prod.fst) (fun p => (gs p).map Prod.snd)) := by
  have ha : ∀ p, ((gs p).map Prod.fst).map List.length = sizes := by
    intro p
    rw [List.map_map]
    exact hl p
  have hb : ∀ p, ((gs p).map Prod.snd).map List.length = sizes := by
    intro p
    rw [List.map_map]
    exact hr p
  have hany : ∀ p, (gs p).any (fun g => g.1.length != g.2.length) = false := by
    intro p
    have heq := (hl p).trans (hr p).symm
    rw [List.map_inj_left] at heq
    rw [List.any_eq_false]
    intro g hg
    simp [heq g hg]
  have hprog : ∀ p, (andManyGrouped t (gs p) : Proc R _) =
      (andManyIterSend t ((gs p).map Prod.fst).flatten ((gs p).map Prod.snd).flatten sizes.sum >>=
        fun loc => andManyReceive t >>= fun remote =>
          if loc.length ≠ sizes.sum ∨ remote.length ≠ sizes.sum then
            Proc.lift (.bail "InvalidSize returned by grouped AND")
          else pure (regroup sizes loc remote)) := by
    intro p
    unfold andManyGrouped
    rw [if_neg (by rw [hany p]; exact Bool.false_ne_true)]
    simp only [List.flatMap_def, hl p]
  simp only [hprog]
  refine gate_round fun mine hmine => ?_
  have hlen := length_gatePart (length_flatten_of_sizes ha) (length_flatten_of_sizes hb) hmine
  simp only [hlen, ne_eq, not_true, or_self, if_false]
  exact Succeeds.pure (isAndPlanes_regroup ha hb hmine)

end Programs

end AmpcCommon.Protocol
