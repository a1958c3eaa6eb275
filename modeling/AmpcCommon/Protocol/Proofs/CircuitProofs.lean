import AmpcCommon.Base.BitSum
import AmpcCommon.Protocol.Proofs.AdderProofs

/-!
# Circuits in lanes, proofs

A circuit computes the same function of bits in every lane: a lane is a bit position of a word. `Carries` says
which bits a vector of words shares, `CarriesPlanes` says it for a list of vectors. Both say this under a
condition `C` only, while the lengths are as stated in any case: with `C` the consistency of the inputs, a
rule tells what a circuit computes and that it does not fail on inconsistent inputs either.
-/

namespace AmpcCommon.Protocol

variable {K : Nat} {C : Prop} {w : Nat}

/-- The vectors `v` share words with the bits `f`. -/
def Carries (C : Prop) (w : Nat) (v : Party → List (Share K)) (f : Nat → Bool) : Prop :=
  (∀ p, (v p).length = w) ∧ (C → ∃ zs, Shares v zs ∧ ∀ i, lane (i / K) (i % K) (zs.map Rep3.xor) = f i)

/-- The lists of vectors `v` share planes of words with the bits `F`. -/
def CarriesPlanes (C : Prop) (m w : Nat) (v : Party → List (List (Share K))) (F : Nat → List Bool) : Prop :=
  (∀ p, IsPlanes m w (v p)) ∧ (C → ∃ zss, SharesPlanes v zss ∧ ∀ i, lanes (i / K) (i % K) zss = F i)

theorem Carries.congr {v : Party → List (Share K)} {f g : Nat → Bool} (h : Carries C w v f)
    (hfg : C → ∀ i, f i = g i) : Carries C w v g := by
  refine ⟨h.1, fun hC => ?_⟩
  obtain ⟨zs, hzs, hlane⟩ := h.2 hC
  exact ⟨zs, hzs, fun i => (hlane i).trans (hfg hC i)⟩

theorem Carries.xor {a b : Party → List (Share K)} {f g : Nat → Bool} (ha : Carries C w a f)
    (hb : Carries C w b g) : Carries C w (fun p => vecShareXor (a p) (b p)) fun i => f i ^^ g i := by
  refine ⟨fun p => by rw [length_vecShareXor, ha.1, hb.1, Nat.min_self], fun hC => ?_⟩
  obtain ⟨xs, hxs, hf⟩ := ha.2 hC
  obtain ⟨ys, hys, hg⟩ := hb.2 hC
  refine ⟨List.zipWith xorRep3 xs ys, fun p => ?_, fun i => ?_⟩
  · show vecShareXor (a p) (b p) = _
    rw [hxs p, hys p, vecShareXor_map]
  · have hlen : (xs.map Rep3.xor).length = (ys.map Rep3.xor).length := by
      rw [List.length_map, List.length_map, ← hxs.length 0, ← hys.length 0, ha.1, hb.1]
    rw [map_xor_zipWith, lane_xor hlen, hf, hg]

theorem Carries.xorAssign {a b : Party → List (Share K)} {f g : Nat → Bool} (ha : Carries C w a f)
    (hb : Carries C w b g) :
    Carries C w (fun p => vecShareXorAssign (a p) (b p)) fun i => f i ^^ g i := by
  simp only [fun p => vecShareXorAssign_eq ((ha.1 p).trans (hb.1 p).symm)]
  exact ha.xor hb

theorem transposedPackXorAssign_eq {n : Nat} {a b : List (List (Share K))} (ha : IsPlanes n w a)
    (hb : IsPlanes n w b) : transposedPackXorAssign a b = transposedPackXor a b := by
  induction n generalizing a b with
  | zero =>
    cases List.length_eq_zero_iff.mp ha.1
    cases List.length_eq_zero_iff.mp hb.1
    rfl
  | succ n ih =>
    obtain ⟨x, a, rfl⟩ := List.exists_cons_of_length_eq_add_one ha.1
    obtain ⟨y, b, rfl⟩ := List.exists_cons_of_length_eq_add_one hb.1
    have hx : x.length = y.length := (ha.2 x (by simp)).trans (hb.2 y (by simp)).symm
    have hab := ih ha.drop_one hb.drop_one
    show vecShareXorAssign x y :: transposedPackXorAssign a b = vecShareXor x y :: transposedPackXor a b
    rw [vecShareXorAssign_eq hx]
    exact congrArg _ hab

namespace CarriesPlanes

variable {m : Nat} {a b : Party → List (List (Share K))} {F G : Nat → List Bool}

theorem congr (h : CarriesPlanes C m w a F) (hFG : C → ∀ i, F i = G i) : CarriesPlanes C m w a G := by
  refine ⟨h.1, fun hC => ?_⟩
  obtain ⟨zss, hzss, hlanes⟩ := h.2 hC
  exact ⟨zss, hzss, fun i => (hlanes i).trans (hFG hC i)⟩

theorem isPlanes_shared (h : CarriesPlanes C m w a F) {zss : List (List (Rep3 K))} (hzss : SharesPlanes a zss) :
    IsPlanes m w zss :=
  isPlanes_of_map_length (by rw [← hzss.map_length 0, (h.1 0).map_length])

theorem length (h : CarriesPlanes C m w a F) (hC : C) (i : Nat) : (F i).length = m := by
  obtain ⟨zss, hzss, hlanes⟩ := h.2 hC
  rw [← hlanes, lanes, opened, List.length_map, List.length_map, (h.isPlanes_shared hzss).1]

theorem xor (ha : CarriesPlanes C m w a F) (hb : CarriesPlanes C m w b G) :
    CarriesPlanes C m w (fun p => transposedPackXor (a p) (b p))
      fun i => List.zipWith Bool.xor (F i) (G i) := by
  refine ⟨fun p => (ha.1 p).transposedPackXor (hb.1 p), fun hC => ?_⟩
  obtain ⟨xss, hxs, hF⟩ := ha.2 hC
  obtain ⟨yss, hys, hG⟩ := hb.2 hC
  refine ⟨_, hxs.transposedPackXor hys, fun i => ?_⟩
  rw [lanes_xor (ha.isPlanes_shared hxs) (hb.isPlanes_shared hys), hF, hG]

theorem xorAssign (ha : CarriesPlanes C m w a F) (hb : CarriesPlanes C m w b G) :
    CarriesPlanes C m w (fun p => transposedPackXorAssign (a p) (b p))
      fun i => List.zipWith Bool.xor (F i) (G i) := by
  simp only [fun p => transposedPackXorAssign_eq (ha.1 p) (hb.1 p)]
  exact ha.xor hb

theorem dropLast (ha : CarriesPlanes C (m + 1) w a F) :
    CarriesPlanes C m w (fun p => (a p).dropLast) fun i => (F i).dropLast := by
  refine ⟨fun p => (ha.1 p).dropLast, fun hC => ?_⟩
  obtain ⟨zss, hzss, hF⟩ := ha.2 hC
  refine ⟨_, hzss.dropLast, fun i => ?_⟩
  show _ = (F i).dropLast
  rw [← hF]
  simp only [lanes, opened, List.map_dropLast]

theorem drop (ha : CarriesPlanes C m w a F) (k : Nat) :
    CarriesPlanes C (m - k) w (fun p => (a p).drop k) fun i => (F i).drop k := by
  refine ⟨fun p => ⟨by rw [List.length_drop, (ha.1 p).1], fun x hx => (ha.1 p).2 x (List.mem_of_mem_drop hx)⟩,
    fun hC => ?_⟩
  obtain ⟨zss, hzss, hF⟩ := ha.2 hC
  refine ⟨_, hzss.drop k, fun i => ?_⟩
  show _ = (F i).drop k
  rw [← hF]
  simp only [lanes, opened, List.map_drop]

theorem take (ha : CarriesPlanes C m w a F) {k : Nat} (hk : k ≤ m) :
    CarriesPlanes C k w (fun p => (a p).take k) fun i => (F i).take k := by
  refine ⟨fun p => ⟨by rw [List.length_take, (ha.1 p).1, Nat.min_eq_left hk],
    fun x hx => (ha.1 p).2 x (List.mem_of_mem_take hx)⟩, fun hC => ?_⟩
  obtain ⟨zss, hzss, hF⟩ := ha.2 hC
  refine ⟨zss.take k, fun p => ?_, fun i => ?_⟩
  · show (a p).take k = _
    rw [hzss p, List.map_take]
  · show _ = (F i).take k
    rw [← hF]
    simp only [lanes, opened, List.map_take]

/-- One of the vectors. -/
theorem getD (ha : CarriesPlanes C m w a F) {k : Nat} (hk : k < m) :
    Carries C w (fun p => (a p).getD k []) fun i => (F i).getD k false := by
  refine ⟨fun p => ?_, fun hC => ?_⟩
  · show ((a p).getD k []).length = w
    rw [List.getD_eq_getElem _ _ (by rw [(ha.1 p).1]; exact hk)]
    exact (ha.1 p).2 _ (List.getElem_mem _)
  · obtain ⟨zss, hzss, hF⟩ := ha.2 hC
    have hlen := (ha.isPlanes_shared hzss).1
    refine ⟨zss.getD k [], fun p => ?_, fun i => ?_⟩
    · show (a p).getD k [] = _
      rw [hzss p]
      simp [hlen, hk]
    · show _ = (F i).getD k false
      rw [← hF]
      simp [lanes, opened, hlen, hk]

theorem nil : CarriesPlanes C 0 w (fun _ => ([] : List (List (Share K)))) fun _ => [] :=
  ⟨fun _ => ⟨rfl, fun _ hx => absurd hx List.not_mem_nil⟩, fun _ => ⟨[], fun _ => rfl, fun _ => rfl⟩⟩

theorem cons {x : Party → List (Share K)} {f : Nat → Bool} (hx : Carries C w x f)
    (ha : CarriesPlanes C m w a F) : CarriesPlanes C (m + 1) w (fun p => x p :: a p) fun i => f i :: F i := by
  refine ⟨fun p => ⟨by rw [List.length_cons, (ha.1 p).1], fun y hy => ?_⟩, fun hC => ?_⟩
  · rcases List.mem_cons.mp hy with rfl | hy
    · exact hx.1 p
    · exact (ha.1 p).2 y hy
  · obtain ⟨zs, hzs, hf⟩ := hx.2 hC
    obtain ⟨zss, hzss, hF⟩ := ha.2 hC
    refine ⟨zs :: zss, fun p => ?_, fun i => ?_⟩
    · show x p :: a p = _
      rw [hzs p, hzss p]
      rfl
    · show _ = f i :: F i
      rw [← hf, ← hF]
      rfl

theorem append {n : Nat} (ha : CarriesPlanes C m w a F) (hb : CarriesPlanes C n w b G) :
    CarriesPlanes C (m + n) w (fun p => a p ++ b p) fun i => F i ++ G i := by
  refine ⟨fun p => ⟨by rw [List.length_append, (ha.1 p).1, (hb.1 p).1], fun y hy => ?_⟩, fun hC => ?_⟩
  · rcases List.mem_append.mp hy with hy | hy
    · exact (ha.1 p).2 y hy
    · exact (hb.1 p).2 y hy
  · obtain ⟨xss, hxs, hF⟩ := ha.2 hC
    obtain ⟨yss, hys, hG⟩ := hb.2 hC
    refine ⟨xss ++ yss, fun p => ?_, fun i => ?_⟩
    · show a p ++ b p = _
      rw [hxs p, hys p, List.map_append]
    · show _ = F i ++ G i
      rw [← hF, ← hG]
      simp only [lanes, opened, List.map_append]

/-- The first vector and the others. -/
theorem uncons (ha : CarriesPlanes C (m + 1) w a F) :
    ∃ (x : Party → List (Share K)) (b : Party → List (List (Share K))), (∀ p, a p = x p :: b p) ∧
      Carries C w x (fun i => (F i).getD 0 false) ∧ CarriesPlanes C m w b fun i => (F i).drop 1 := by
  refine ⟨_, _, fun p => ?_, ha.getD (Nat.succ_pos m), ha.drop 1⟩
  obtain ⟨x, xs, hx⟩ := List.exists_cons_of_length_eq_add_one (ha.1 p).1
  rw [hx]
  rfl

end CarriesPlanes

/-! ## Gates -/

section Gates

variable {R : Type} [Rng R] {t : RingTy}

theorem andMany_carries {a b : Party → List (Share t.bits)} {f g : Nat → Bool} (ha : Carries C w a f)
    (hb : Carries C w b g) :
    Succeeds (fun p => (andMany t (a p) (b p) : Proc R _)) fun r => Carries C w r fun i => f i && g i := by
  refine (andMany_succeeds ha.1 hb.1).mono fun r hr => ⟨hr.length, fun hC => ?_⟩
  obtain ⟨zs, -, hzs, hand⟩ := hr
  obtain ⟨xs, hxs, hf⟩ := ha.2 hC
  obtain ⟨ys, hys, hg⟩ := hb.2 hC
  refine ⟨zs, hzs, fun i => ?_⟩
  have hlen : (xs.map Rep3.xor).length = (ys.map Rep3.xor).length := by
    rw [List.length_map, List.length_map, ← hxs.length 0, ← hys.length 0, ha.1, hb.1]
  rw [hand xs ys hxs hys, lane_and hlen, hf, hg]

/-- The lanes of AND gates on several vectors. -/
theorem IsAndPlanes.carries {m : Nat} {a b r : Party → List (List (Share K))} {F G : Nat → List Bool}
    (h : IsAndPlanes (List.replicate m w) a b r) (ha : CarriesPlanes C m w a F) (hb : CarriesPlanes C m w b G) :
    CarriesPlanes C m w r fun i => List.zipWith and (F i) (G i) := by
  refine ⟨fun p => isPlanes_of_map_length (h.map_length p), fun hC => ?_⟩
  obtain ⟨zss, -, hzss, hand⟩ := h
  obtain ⟨xss, hxs, hF⟩ := ha.2 hC
  obtain ⟨yss, hys, hG⟩ := hb.2 hC
  refine ⟨zss, hzss, fun i => ?_⟩
  rw [lanes_and (ha.isPlanes_shared hxs) (hb.isPlanes_shared hys) (hand xss yss hxs hys), hF, hG]

theorem transposedPackAnd_carries {m : Nat} {a b : Party → List (List (Share t.bits))}
    {F G : Nat → List Bool} (ha : CarriesPlanes C m w a F) (hb : CarriesPlanes C m w b G) :
    Succeeds (fun p => (transposedPackAnd t (a p) (b p) : Proc R _)) fun r =>
      CarriesPlanes C m w r fun i => List.zipWith and (F i) (G i) :=
  (transposedPackAnd_succeeds (fun p => (ha.1 p).map_length) (fun p => (hb.1 p).map_length)).mono
    fun _ hr => hr.carries ha hb

/-- Gates on several pairs of vectors at once. -/
theorem andManyGrouped_carries {m : Nat} {a b : Party → List (List (Share t.bits))}
    {F G : Nat → List Bool} (ha : CarriesPlanes C m w a F) (hb : CarriesPlanes C m w b G) :
    Succeeds (fun p => (andManyGrouped t ((a p).zip (b p)) : Proc R _)) fun r =>
      CarriesPlanes C m w r fun i => List.zipWith and (F i) (G i) := by
  have hlen : ∀ p, (a p).length = (b p).length := fun p => (ha.1 p).1.trans (hb.1 p).1.symm
  have hfst : ∀ p, ((a p).zip (b p)).map Prod.fst = a p := fun p => List.map_fst_zip (hlen p).le
  have hsnd : ∀ p, ((a p).zip (b p)).map Prod.snd = b p := fun p => List.map_snd_zip (hlen p).ge
  have hleft : ∀ p, ((a p).zip (b p)).map (fun g => g.1.length) = List.replicate m w := by
    intro p
    have hsizes := (ha.1 p).map_length
    rw [← hfst p, List.map_map] at hsizes
    exact hsizes
  have hright : ∀ p, ((a p).zip (b p)).map (fun g => g.2.length) = List.replicate m w := by
    intro p
    have hsizes := (hb.1 p).map_length
    rw [← hsnd p, List.map_map] at hsizes
    exact hsizes
  refine (andManyGrouped_succeeds hleft hright).mono fun r hand => ?_
  simp only [hfst, hsnd] at hand
  exact hand.carries ha hb

/-! ## Three numbers -/

theorem carryLoop_carries {m : Nat} {s c : Party → List (List (Share t.bits))} {k : Party → List (Share t.bits)}
    {F G : Nat → List Bool} {f : Nat → Bool} (hs : CarriesPlanes C m w s F)
    (hc : CarriesPlanes C m w c G) (hk : Carries C w k f) :
    Succeeds (fun p => (carryLoop t (s p) (c p) (k p) : Proc R _)) fun r =>
      Carries C w r fun i => BitSum.ripple (F i) (G i) (f i) := by
  induction m generalizing s c k F G f with
  | zero =>
    have hnil : ∀ p, s p = [] := fun p => List.length_eq_zero_iff.mp (hs.1 p).1
    simp only [hnil, carryLoop]
    refine Succeeds.pure (hk.congr fun hC i => ?_)
    rw [List.length_eq_zero_iff.mp (hs.length hC i)]
    rfl
  | succ m ih =>
    have hhead : ∀ {v : Party → List (List (Share t.bits))} {F : Nat → List Bool},
        CarriesPlanes C (m + 1) w v F → ∀ p, v p = (v p).getD 0 [] :: (v p).drop 1 := by
      intro v F hv p
      obtain ⟨x, xs, hx⟩ := List.exists_cons_of_length_eq_add_one (hv.1 p).1
      rw [hx]
      rfl
    have hloop : ∀ p, (carryLoop t (s p) (c p) (k p) : Proc R _) =
        (andMany t (vecShareXorAssign ((s p).getD 0 []) (k p)) (vecShareXorAssign ((c p).getD 0 []) (k p)) >>=
          fun tmpC => carryLoop t ((s p).drop 1) ((c p).drop 1) (vecShareXorAssign (k p) tmpC)) := by
      intro p
      rw [hhead hs p, hhead hc p]
      rfl
    simp only [hloop]
    have hs0 := hs.getD (Nat.succ_pos m)
    have hc0 := hc.getD (Nat.succ_pos m)
    refine (andMany_carries (hs0.xorAssign hk) (hc0.xorAssign hk)).bind fun tmp htmp => ?_
    refine (ih (hs.drop 1) (hc.drop 1) (hk.xorAssign htmp)).mono fun r hr => hr.congr fun hC i => ?_
    obtain ⟨x, xs, hx⟩ := List.exists_cons_of_length_eq_add_one (hs.length hC i)
    obtain ⟨y, ys, hy⟩ := List.exists_cons_of_length_eq_add_one (hc.length hC i)
    rw [hx, hy]
    rfl

end Gates

end AmpcCommon.Protocol
