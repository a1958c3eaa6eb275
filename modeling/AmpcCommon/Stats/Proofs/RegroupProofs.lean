import AmpcCommon.Protocol.Proofs.LiftProofs
import AmpcCommon.Protocol.Proofs.NhdReductionProofs
import AmpcCommon.Stats.Iris1d

/-!
# Lifting bundles, proofs

The bundles are flattened, lifted at once, and read back in the shape they had (`reconstruct_eq`). What is read back are
shares of the same distances, in the larger ring (`liftBundles1d_succeeds`, `liftBundlesU48_1d_succeeds`).
-/

namespace AmpcCommon.Stats

open Protocol

/-! ## Reading the bundles back -/

section Regroup

variable {β : Type} {read : Nat → Outcome β} {width : Nat}

theorem readBundle_eq {xs : List β} {idx : Nat}
    (h : ∀ k, (hk : k < xs.length) → read (idx + k * width) = .ok xs[k]) :
    readBundle read width xs.length idx = .ok (xs, idx + xs.length * width) := by
  induction xs generalizing idx with
  | nil =>
    rw [List.length_nil, Nat.zero_mul]
    rfl
  | cons x xs ih =>
    have hfirst : read idx = .ok x := by
      have h0 := h 0 (Nat.zero_lt_succ _)
      rwa [Nat.zero_mul] at h0
    have hrest := ih fun k hk => by
      have hnext := h (k + 1) (Nat.succ_lt_succ hk)
      rwa [Nat.succ_mul, Nat.add_comm (k * width), ← Nat.add_assoc] at hnext
    have hend : idx + width + xs.length * width = idx + (xs.length + 1) * width := by
      rw [Nat.succ_mul]
      omega
    rw [List.length_cons, readBundle, hfirst, Outcome.ok_bind, hrest, hend]
    rfl

theorem readBundles_eq {xss : List (List β)} {idx : Nat}
    (h : ∀ k, (hk : k < xss.flatten.length) → read (idx + k * width) = .ok xss.flatten[k]) :
    readBundles read width (xss.map List.length) idx = .ok (xss, idx + xss.flatten.length * width) := by
  induction xss generalizing idx with
  | nil =>
    rw [List.flatten_nil, List.length_nil, Nat.zero_mul]
    rfl
  | cons xs xss ih =>
    have hlen : (xs :: xss).flatten.length = xs.length + xss.flatten.length := by
      rw [List.flatten_cons, List.length_append]
    have hbundle : readBundle read width xs.length idx = .ok (xs, idx + xs.length * width) := by
      refine readBundle_eq fun k hk => ?_
      rw [h k (by omega)]
      simp only [List.flatten_cons, List.getElem_append_left hk]
    have hrest := ih fun k hk => by
      have hnext := h (xs.length + k) (by omega)
      rw [Nat.add_mul, ← Nat.add_assoc] at hnext
      rw [hnext]
      simp only [List.flatten_cons, List.getElem_append_right' xs hk, Nat.add_comm]
    rw [List.map_cons, readBundles, hbundle]
    simp only [Outcome.ok_bind, hrest]
    rw [hlen, Nat.add_mul, ← Nat.add_assoc]
    rfl

/-- Elements that are stored one after the other are read back as they were. -/
theorem reconstruct_eq {xss : List (List β)} {len : Nat} (hlen : len = xss.flatten.length * width)
    (h : ∀ k, (hk : k < xss.flatten.length) → read (k * width) = .ok xss.flatten[k]) :
    reconstruct read width len (xss.map List.length) = .ok xss := by
  have hread : readBundles read width (xss.map List.length) 0 = .ok (xss, 0 + xss.flatten.length * width) := by
    refine readBundles_eq fun k hk => ?_
    rw [Nat.zero_add, h k hk]
  rw [reconstruct, hread, Outcome.ok_bind]
  simp only [Nat.zero_add, hlen, if_true]
  rfl

end Regroup

/-! ## Lifting -/

section Lift

variable {K L : Nat}

/-- The components of the codes and masks of all bundles. -/
def flattenParts (zs : List (Rep3Distance K)) : List (Rep3 K) := zs.flatMap fun z => [z.1, z.2]

theorem flattenParts_cons (z : Rep3Distance K) (zs : List (Rep3Distance K)) :
    flattenParts (z :: zs) = z.1 :: z.2 :: flattenParts zs := rfl

@[simp] theorem length_flattenParts (zs : List (Rep3Distance K)) : (flattenParts zs).length = 2 * zs.length := by
  induction zs with
  | nil => rfl
  | cons z zs ih =>
    rw [flattenParts_cons, List.length_cons, List.length_cons, List.length_cons, ih]
    omega

theorem flattenBundles_view (zss : List (List (Rep3Distance K))) (p : Party) :
    flattenBundles (zss.map (List.map (Rep3Distance.view p))) = (flattenParts zss.flatten).map (Rep3.view p) := by
  unfold flattenBundles flattenParts
  induction zss with
  | nil => rfl
  | cons zs zss ih =>
    rw [List.map_cons, List.flatMap_cons, ih, List.flatten_cons, List.flatMap_append, List.map_append]
    congr 1
    rw [List.flatMap_map, List.map_flatMap]
    rfl

/-- The codes and masks at the places of a distance. -/
theorem getElem?_flattenParts (zs : List (Rep3Distance K)) (k : Nat) :
    (flattenParts zs)[k * 2]? = zs[k]?.map Prod.fst ∧ (flattenParts zs)[k * 2 + 1]? = zs[k]?.map Prod.snd := by
  induction zs generalizing k with
  | nil => exact ⟨rfl, rfl⟩
  | cons z zs ih =>
    cases k with
    | zero => exact ⟨rfl, rfl⟩
    | succ k =>
      rw [Nat.succ_mul]
      exact ih k

/-- Shares of mapped codes and masks are shares of mapped distances. -/
theorem exists_parts {f : BitVec K → BitVec L} {zs : List (Rep3Distance K)} {ys : List (Rep3 L)}
    (h : ys.map Rep3.sum = (flattenParts zs).map fun x => f x.sum) :
    ∃ zs' : List (Rep3Distance L), ys = flattenParts zs' ∧
      zs'.map Rep3Distance.value = (zs.map Rep3Distance.value).map (Prod.map f f) := by
  induction zs generalizing ys with
  | nil => exact ⟨[], List.map_eq_nil_iff.mp h, rfl⟩
  | cons z zs ih =>
    rw [flattenParts_cons, List.map_cons, List.map_cons] at h
    obtain ⟨code, rest, rfl, hcode, hrest⟩ := List.map_eq_cons_iff.mp h
    obtain ⟨mask, ys, rfl, hmask, hys⟩ := List.map_eq_cons_iff.mp hrest
    obtain ⟨zs', rfl, hvalues⟩ := ih hys
    refine ⟨(code, mask) :: zs', rfl, ?_⟩
    rw [List.map_cons, List.map_cons, List.map_cons, hvalues]
    exact congrArg (· :: _) (Prod.ext hcode hmask)

/-- A list with the values of a flattened one has its shape. -/
theorem exists_groups {α β γ : Type} {f : α → γ} {g : β → γ} {xss : List (List β)} {ys : List α}
    (h : ys.map f = xss.flatten.map g) : ∃ yss : List (List α), ys = yss.flatten ∧
      yss.map (List.map f) = xss.map (List.map g) := by
  induction xss generalizing ys with
  | nil => exact ⟨[], List.map_eq_nil_iff.mp h, rfl⟩
  | cons xs xss ih =>
    rw [List.flatten_cons, List.map_append] at h
    obtain ⟨first, rest, rfl, hfirst, hrest⟩ := List.map_eq_append_iff.mp h
    obtain ⟨yss, rfl, hyss⟩ := ih hrest
    exact ⟨first :: yss, rfl, by rw [List.map_cons, List.map_cons, hfirst, hyss]⟩

/-- The lifted shares in the shape of the bundles. -/
theorem exists_lifted {f : BitVec K → BitVec L} {zss : List (List (Rep3Distance K))} {ys : List (Rep3 L)}
    (h : ys.map Rep3.sum = (flattenParts zss.flatten).map fun x => f x.sum) :
    ∃ zss' : List (List (Rep3Distance L)), ys = flattenParts zss'.flatten ∧
      zss'.map (List.map Rep3Distance.value) =
        (zss.map (List.map Rep3Distance.value)).map (List.map (Prod.map f f)) := by
  obtain ⟨zs', rfl, hvalues⟩ := exists_parts h
  rw [List.map_map] at hvalues
  obtain ⟨zss', rfl, hgroups⟩ := exists_groups hvalues
  refine ⟨zss', rfl, hgroups.trans ?_⟩
  rw [List.map_map]
  exact List.map_congr_left fun zs _ => List.map_map.symm

/-- The same shape, by the values. -/
theorem map_length_eq {α β γ : Type} {f : α → γ} {g : β → γ} {xss : List (List α)} {yss : List (List β)}
    (h : xss.map (List.map f) = yss.map (List.map g)) : xss.map List.length = yss.map List.length := by
  have hlengths := congrArg (List.map List.length) h
  rw [List.map_map, List.map_map] at hlengths
  simpa [Function.comp_def] using hlengths

theorem indexVec_of_getElem? {α : Type} {v : List α} {idx : Nat} {x : α} (h : v[idx]? = some x) :
    indexVec v idx = .ok x := by
  rw [indexVec, h]

/-- A distance is read from the places of its code and its mask. -/
theorem readDistance_view {zs : List (Rep3Distance K)} {k : Nat} (hk : k < zs.length) (p : Party) :
    readDistance ((flattenParts zs).map (Rep3.view p)) (k * 2) = .ok (zs[k].view p) := by
  obtain ⟨hcode, hmask⟩ := getElem?_flattenParts zs k
  rw [List.getElem?_eq_getElem hk] at hcode hmask
  have hfirst : ((flattenParts zs).map (Rep3.view p))[k * 2]? = some (zs[k].1.view p) := by
    rw [List.getElem?_map, hcode]
    rfl
  have hsecond : ((flattenParts zs).map (Rep3.view p))[k * 2 + 1]? = some (zs[k].2.view p) := by
    rw [List.getElem?_map, hmask]
    rfl
  unfold readDistance
  rw [indexVec_of_getElem? hfirst, Outcome.ok_bind, indexVec_of_getElem? hsecond]
  rfl

/-- The loop of `lift_bundles_1d` reads the lifted distances back. -/
theorem reconstruct_readDistance {zss : List (List (Rep3Distance K))} {sizes : List Nat}
    (hsizes : sizes = zss.map List.length) (p : Party) :
    reconstruct (readDistance ((flattenParts zss.flatten).map (Rep3.view p))) 2
      ((flattenParts zss.flatten).map (Rep3.view p)).length sizes = .ok (zss.map (List.map (Rep3Distance.view p))) := by
  have hshape : sizes = (zss.map (List.map (Rep3Distance.view p))).map List.length := by
    rw [hsizes, List.map_map]
    exact List.map_congr_left fun zs _ => (List.length_map _).symm
  rw [hshape]
  refine reconstruct_eq ?_ fun k hk => ?_
  · rw [List.length_map, length_flattenParts, ← List.map_flatten, List.length_map, Nat.mul_comm]
  · rw [← List.map_flatten, List.length_map] at hk
    rw [readDistance_view hk]
    simp only [← List.map_flatten, List.getElem_map]

/-- The pairs of a flattened list. -/
theorem chunks_flattenParts (zs : List (Rep3Distance K)) (p : Party) :
    (chunks 2 ((flattenParts zs).map (Rep3.view p))).mapM distanceOfChunk = .ok (zs.map (Rep3Distance.view p)) := by
  have hflat : (flattenParts zs).map (Rep3.view p) =
      (zs.map fun z => [z.1.view p, z.2.view p]).flatten := by
    rw [flattenParts, List.map_flatMap, ← List.flatMap_def]
    rfl
  have hchunks : chunks 2 ((flattenParts zs).map (Rep3.view p)) = zs.map fun z => [z.1.view p, z.2.view p] := by
    rw [hflat]
    exact chunks_flatten (by omega) (List.forall_mem_map.mpr fun z _ => rfl)
  rw [hchunks, List.mapM_map]
  exact Outcome.mapM_eq_ok fun z _ => rfl

theorem flatten_view (zss : List (List (Rep3Distance K))) (p : Party) :
    (zss.map (List.map (Rep3Distance.view p))).flatten = zss.flatten.map (Rep3Distance.view p) := List.map_flatten.symm

/-- The loop of `lift_bundles_u48_1d` reads the distances back. -/
theorem reconstruct_indexVec {zss : List (List (Rep3Distance K))} {sizes : List Nat}
    (hsizes : sizes = zss.map List.length) (p : Party) :
    reconstruct (indexVec (zss.flatten.map (Rep3Distance.view p))) 1 (zss.flatten.map (Rep3Distance.view p)).length
      sizes = .ok (zss.map (List.map (Rep3Distance.view p))) := by
  have hshape : sizes = (zss.map (List.map (Rep3Distance.view p))).map List.length := by
    rw [hsizes, List.map_map]
    exact List.map_congr_left fun zs _ => (List.length_map _).symm
  rw [hshape, ← flatten_view]
  refine reconstruct_eq (Nat.mul_one _).symm fun k hk => ?_
  rw [Nat.mul_one]
  exact indexVec_of_getElem? (List.getElem?_eq_getElem hk)

end Lift

/-! ## The programs -/

/-- A code and a mask in the ring with 16 bits. -/
def toRing16 (d : Int × Int) : BitVec 16 × BitVec 16 := (BitVec.ofInt 16 d.1, BitVec.ofInt 16 d.2)

/-- Both numbers of a distance are signed numbers of 16 bits. -/
structure LiftFits (d : Int × Int) : Prop where
  code_ge : -2 ^ 15 ≤ d.1
  code_lt : d.1 < 2 ^ 15
  mask_ge : -2 ^ 15 ≤ d.2
  mask_lt : d.2 < 2 ^ 15

theorem signExtend_ofInt {L : Nat} {z : Int} (hlow : -2 ^ 15 ≤ z) (hhigh : z < 2 ^ 15) :
    (BitVec.ofInt 16 z).signExtend L = BitVec.ofInt L z :=
  congrArg (BitVec.ofInt L) (toInt_ofInt_of_bounds 15 hlow hhigh)

/-- The sign extension of an encoded distance. -/
theorem signExtend_toRing16 (L : Nat) {d : Int × Int} (h : LiftFits d) :
    Prod.map (BitVec.signExtend L) (BitVec.signExtend L) (toRing16 d) = (BitVec.ofInt L d.1, BitVec.ofInt L d.2) :=
  Prod.ext (signExtend_ofInt h.code_ge h.code_lt) (signExtend_ofInt h.mask_ge h.mask_lt)

theorem signExtend_groups (L : Nat) {groups : List (List (Int × Int))} (h : ∀ group ∈ groups, ∀ d ∈ group, LiftFits d) :
    (groups.map (List.map toRing16)).map (List.map (Prod.map (BitVec.signExtend L) (BitVec.signExtend L))) =
      groups.map (List.map fun d => (BitVec.ofInt L d.1, BitVec.ofInt L d.2)) := by
  rw [List.map_map]
  refine List.map_congr_left fun group hg => ?_
  rw [Function.comp_apply, List.map_map]
  exact List.map_congr_left fun d hd => signExtend_toRing16 L (h group hg d hd)

section Programs

variable {R : Type} [Rng R] {v : Party → List (DistanceBundle1D 16)} {groups : List (List (Int × Int))}

omit [Rng R] in
/-- What the batch lift leaves of the flattened bundles. -/
theorem liftedParts {L : Nat} (lift : Party → List (Share 16) → Proc R (List (Share L)))
    (hlift : ∀ {w : Party → List (Share 16)} {n : Nat}, (∀ p, (w p).length = n) → ∀ {xs : List (Rep3 16)},
      (True → Shares w xs) → Succeeds (fun p => lift p (w p)) (IsMapped True n xs fun x => x.signExtend L))
    (hv : GroupsIn toRing16 v groups) (hfits : ∀ group ∈ groups, ∀ d ∈ group, LiftFits d) :
    Succeeds (fun p => lift p (flattenBundles (v p))) fun r => ∃ zss : List (List (Rep3Distance L)),
      (∀ p, r p = (flattenParts zss.flatten).map (Rep3.view p)) ∧
        (∀ p, (v p).map List.length = zss.map List.length) ∧
          zss.map (List.map Rep3Distance.value) =
            groups.map (List.map fun d => (BitVec.ofInt L d.1, BitVec.ofInt L d.2)) := by
  have hshape := hv.map_length
  obtain ⟨zss, hz, hvalues⟩ := hv
  have hflat : ∀ p, flattenBundles (v p) = (flattenParts zss.flatten).map (Rep3.view p) := by
    intro p
    rw [hz p, flattenBundles_view]
  have hlen : ∀ p, (flattenBundles (v p)).length = (flattenParts zss.flatten).length := by
    intro p
    rw [hflat p, List.length_map]
  refine (hlift hlen fun _ => hflat).mono fun r hr => ?_
  obtain ⟨ys, hys, hsum⟩ := hr.2 trivial
  obtain ⟨zss', rfl, hgroups⟩ := exists_lifted hsum
  rw [hvalues, signExtend_groups L hfits] at hgroups
  exact ⟨zss', hys, fun p => (hshape p).trans (map_length_eq hgroups).symm, hgroups⟩

theorem liftBundles1d_succeeds (sid : BitVec 32) (hv : GroupsIn toRing16 v groups)
    (hfits : ∀ group ∈ groups, ∀ d ∈ group, LiftFits d) :
    Succeeds (fun p => (liftBundles1d ⟨p, sid⟩ (v p) : Proc R _)) fun r => GroupsOf r groups := by
  have hlift := liftedParts (R := R) (fun p => batchSignedLiftVec ⟨p, sid⟩)
    (fun hw _ hC => signedLiftWith_succeeds (by omega) sid (lift_succeeds sid) hw hC) hv hfits
  unfold liftBundles1d
  refine hlift.bind fun r hr => ?_
  obtain ⟨zss, hr, hsizes, hvalues⟩ := hr
  refine Succeeds.lift (fun p => ?_) ⟨zss, fun p => rfl, hvalues⟩
  rw [hr p]
  exact reconstruct_readDistance (hsizes p) p

theorem nhdLiftDistances_succeeds (sid : BitVec 32) (hv : GroupsIn toRing16 v groups)
    (hfits : ∀ group ∈ groups, ∀ d ∈ group, LiftFits d) :
    Succeeds (fun p => (nhdLiftDistances ⟨p, sid⟩ (flattenBundles (v p)) : Proc R _)) fun r =>
      ∃ zss : List (List (Rep3Distance 48)), (∀ p, r p = zss.flatten.map (Rep3Distance.view p)) ∧
        (∀ p, (v p).map List.length = zss.map List.length) ∧
          zss.map (List.map Rep3Distance.value) = groups.map (List.map toRing48) := by
  have hlift := liftedParts (R := R) (fun p => batchSignedLiftVecRing48 ⟨p, sid⟩)
    (fun hw _ hC => signedLiftWith_succeeds (by omega) sid (liftToRing48_succeeds sid) hw hC) hv hfits
  unfold nhdLiftDistances
  refine hlift.bind fun r hr => ?_
  obtain ⟨zss, hr, hsizes, hvalues⟩ := hr
  refine Succeeds.lift (fun p => ?_) ⟨zss, fun p => rfl, hsizes, hvalues⟩
  rw [hr p]
  exact chunks_flattenParts zss.flatten p

theorem liftBundlesU48_1d_succeeds (sid : BitVec 32) (hv : GroupsIn toRing16 v groups)
    (hfits : ∀ group ∈ groups, ∀ d ∈ group, LiftFits d) :
    Succeeds (fun p => (liftBundlesU48_1d ⟨p, sid⟩ (v p) : Proc R _)) fun r => GroupsIn toRing48 r groups := by
  unfold liftBundlesU48_1d
  refine (nhdLiftDistances_succeeds sid hv hfits).bind fun r hr => ?_
  obtain ⟨zss, hr, hsizes, hvalues⟩ := hr
  refine Succeeds.lift (fun p => ?_) ⟨zss, fun p => rfl, hvalues⟩
  rw [hr p]
  exact reconstruct_indexVec (hsizes p) p

end Programs

end AmpcCommon.Stats
