import AmpcCommon.Protocol.Proofs.ThresholdProofs
import AmpcCommon.Protocol.Proofs.ReshareProofs

/-!
# The path over components, proofs

The path over components transposes words instead of shares, and projects the packed shares instead of splitting
them. Both give what the dense path gives (`packAnonStatsComponents_eq`, `packedParts_eq`), so from the refreshed
components on the two programs of a party are the same program (`extractAnonStatsMsbBatchFromComponents_eq`).
-/

namespace AmpcCommon.Protocol

/-! ## The transposition of words -/

section Words

variable {W : Nat} (left : Bool)

theorem swapRows_side (m : BitVec W) (j k : Nat) (res : List (Share W)) :
    (swapRows m j k res).map (Share.side left) = swapWordRows m j k (res.map (Share.side left)) := by
  have hshift : ∀ (x y : Share W), ((x.shr j ^^^ y).andConst m).side left =
      (x.side left >>> j ^^^ y.side left) &&& m := by
    intro x y
    rw [Share.side_andConst, Share.side_xor, Share.side_shr]
  unfold swapRows swapWordRows
  simp only [List.map_set, ← getD_map_side, Share.side_xor, Share.side_shl, hshift]

theorem swapLevel_side (rows : Nat) (m : BitVec W) (j : Nat) (res : List (Share W)) :
    (swapLevel rows m j res).map (Share.side left) = swapWordLevel rows m j (res.map (Share.side left)) := by
  unfold swapLevel swapWordLevel
  induction visitedRows rows j rows 0 generalizing res with
  | nil => rfl
  | cons k ks ih =>
    rw [List.foldl_cons, List.foldl_cons, ih, swapRows_side]

theorem transposeLoop_side (rows fuel j : Nat) (m : BitVec W) (res : List (Share W)) :
    (transposeLoop rows fuel j m res).map (Share.side left) =
      transposeWordLoop rows fuel j m (res.map (Share.side left)) := by
  induction fuel generalizing j m res with
  | zero => rfl
  | succ fuel ih =>
    cases j with
    | zero => rfl
    | succ j =>
      show (transposeLoop rows fuel _ _ (swapLevel rows m (j + 1) res)).map _ = _
      rw [ih, swapLevel_side]
      rfl

/-- The transpose of a component is the one of its words. -/
theorem shareTranspose16x64_side (block : List (Share 16)) :
    (shareTranspose16x64 block).map (Share.side left) = transposeU16Block (block.map (Share.side left)) := by
  unfold shareTranspose16x64 transposeU16Block
  simp only [getD_map_side]
  rw [transposeLoop_side, List.map_map]
  cases left <;> rfl

theorem shareTranspose32x64_side (block : List (Share 32)) :
    (shareTranspose32x64 block).map (Share.side left) = transposeU32Block (block.map (Share.side left)) := by
  unfold shareTranspose32x64 transposeU32Block
  simp only [getD_map_side]
  rw [transposeLoop_side, List.map_map]
  cases left <;> rfl

/-- A share with a word on both sides. -/
def twice {K : Nat} (w : BitVec K) : Share K := ⟨w, w⟩

theorem getD_map_twice {K : Nat} (ws : List (BitVec K)) (k : Nat) :
    (ws.map twice).getD k 0 = twice (ws.getD k 0) := by
  rw [show (0 : Share K) = twice 0 from rfl]
  exact List.getD_map _ _ _

theorem map_side_twice {K : Nat} (ws : List (BitVec K)) : (ws.map twice).map (Share.side true) = ws := by
  rw [List.map_map]
  exact List.map_id ws

theorem transposeU16Block_eq (input : List (BitVec 16)) :
    transposeU16Block input = (transposeBlock .u16 (input.map twice)).map (Share.side true) := by
  have hside := shareTranspose16x64_side true (input.map twice)
  rw [map_side_twice] at hside
  exact hside.symm

theorem transposeU32Block_eq (input : List (BitVec 32)) :
    transposeU32Block input = (transposeBlock .u32 (input.map twice)).map (Share.side true) := by
  have hside := shareTranspose32x64_side true (input.map twice)
  rw [map_side_twice] at hside
  exact hside.symm

/-- The transposed words have the bit `i` of the word `n` as bit `n` of the word `i`. -/
theorem transposeBlock_twice_bit (t : RingTy) {input : List (BitVec t.bits)} (hlen : input.length = 64) {i n : Nat}
    (hi : i < t.bits) (hn : n < 64) :
    (((transposeBlock t (input.map twice)).map (Share.side true)).getD i 0).getLsbD n =
      (input.getD n 0).getLsbD i := by
  have hmap : (input.map twice).length = 64 := by rw [List.length_map, hlen]
  have hbit := transposeBlock_bit t hmap true hi hn
  rw [getD_map_twice] at hbit
  rw [getD_map_side, hbit]
  rfl

end Words

/-! ## The packed words -/

section Packed

variable {n : Nat}

theorem getD_fillLanes {K : Nat} {ws : List (BitVec K)} (hws : ws.length = n) {lane : Nat → BitVec K}
    (hlane : ∀ c, c < n → lane c = ws.getD c 0) (word : Nat) {k : Nat} (hk : k < 64) :
    (fillLanes n word lane).getD k 0 = ws.getD (64 * word + k) 0 := by
  unfold fillLanes
  rw [getD_map_range hk, Nat.mul_comm word 64]
  by_cases h : 64 * word + k < n
  · rw [if_pos h, hlane _ h]
  · rw [if_neg h, List.getD_eq_default _ _ (by omega)]

theorem length_fillLanes {K : Nat} (comparisons word : Nat) (lane : Nat → BitVec K) :
    (fillLanes comparisons word lane).length = 64 := by
  simp [fillLanes]

theorem transposeU16Block_plane (lane : Nat → BitVec 16) {ws : List (BitVec 16)} (hws : ws.length = n)
    (hlane : ∀ c, c < n → lane c = ws.getD c 0) (word : Nat) {i : Nat} (hi : i < 16) :
    (transposeU16Block (fillLanes n word lane)).getD i 0 = plane ws i word := by
  refine BitVec.eq_of_getLsbD_eq fun k hk => ?_
  rw [transposeU16Block_eq, plane_bit ws i word hk, ← getD_fillLanes hws hlane word hk]
  exact transposeBlock_twice_bit .u16 (length_fillLanes _ _ _) hi hk

theorem transposeU32Block_plane (lane : Nat → BitVec 32) {ws : List (BitVec 32)} (hws : ws.length = n)
    (hlane : ∀ c, c < n → lane c = ws.getD c 0) (word : Nat) {i : Nat} (hi : i < 32) :
    (transposeU32Block (fillLanes n word lane)).getD i 0 = plane ws i word := by
  refine BitVec.eq_of_getLsbD_eq fun k hk => ?_
  rw [transposeU32Block_eq, plane_bit ws i word hk, ← getD_fillLanes hws hlane word hk]
  exact transposeBlock_twice_bit .u32 (length_fillLanes _ _ _) hi hk

/-- The first planes of a vector. -/
theorem transposePackU64_take (t : RingTy) {shares : List (Share t.bits)} {k m : Nat} (hk : k ≤ t.bits)
    (hm : words shares.length = m) : (transposePackU64 t shares).take k = (List.range k).map fun i =>
      (List.range m).map fun j => ⟨plane (shares.map Share.a) i j, plane (shares.map Share.b) i j⟩ := by
  rw [transposePackU64_eq, hm, ← List.map_take, List.take_range, Nat.min_eq_left hk]

/-- Even and odd positions of a list. -/
theorem getD_evens_odds {α : Type} (xs : List α) (d : α) (c : Nat) :
    (evens xs).getD c d = xs.getD (2 * c) d ∧ (odds xs).getD c d = xs.getD (2 * c + 1) d := by
  induction xs generalizing c with
  | nil => exact ⟨rfl, rfl⟩
  | cons x xs ih =>
    rw [evens_cons, odds_cons]
    refine ⟨?_, ?_⟩
    · cases c with
      | zero => rfl
      | succ c => exact (ih c).2
    · exact (ih c).1

variable {loc previous : List (BitVec 16)} (hloc : loc.length = 2 * n) (hprevious : previous.length = 2 * n)

include hloc hprevious

/-- The codes of the dense shares. -/
theorem length_evens_fromAb :
    (evens (fromAb loc previous)).length = n ∧ (odds (fromAb loc previous)).length = n := by
  have hlen : (fromAb loc previous).length = 2 * n := by
    rw [length_fromAb, hloc, hprevious, Nat.min_self]
  obtain ⟨hevens, hodds⟩ := length_evens_odds (fromAb loc previous)
  rw [hlen] at hevens hodds
  omega

theorem getD_fromAb_side (left : Bool) (k : Nat) :
    ((fromAb loc previous).getD k 0).side left = (if left then loc else previous).getD k 0 := by
  by_cases hk : k < 2 * n
  · have hk1 : k < loc.length := by omega
    have hk2 : k < previous.length := by omega
    cases left <;> simp [fromAb, hk1, hk2, Share.side]
  · have hk1 : ¬ k < loc.length := by omega
    have hk2 : ¬ k < previous.length := by omega
    cases left <;> simp [fromAb, hk1, hk2, Share.side]

/-- The masks of the dense shares, read off the components. -/
theorem laneMask_eq (left : Bool) (c : Nat) : laneMask (if left then loc else previous) c =
    ((odds (fromAb loc previous)).map (Share.side left)).getD c 0 := by
  rw [getD_map_side, (getD_evens_odds (fromAb loc previous) 0 c).2, getD_fromAb_side hloc hprevious, laneMask,
    Nat.mul_comm]

/-- The expressions of the dense shares, read off the components. -/
theorem laneExpression_eq (left : Bool) (c : Nat) : laneExpression (if left then loc else previous) c =
    ((rawExpression (evens (fromAb loc previous)) (odds (fromAb loc previous))).map (Share.side left)).getD c 0 := by
  obtain ⟨hcode, hmask⟩ := getD_evens_odds (fromAb loc previous) 0 c
  obtain ⟨hevens, hodds⟩ := length_evens_fromAb hloc hprevious
  have hzero : (⟨expressionComponent (0 : Share 16).a (0 : Share 16).a,
      expressionComponent (0 : Share 16).b (0 : Share 16).b⟩ : Share 32) = 0 := by decide
  have hexpression : laneExpression (if left then loc else previous) c =
      expressionComponent (((evens (fromAb loc previous)).getD c 0).side left)
        (((odds (fromAb loc previous)).getD c 0).side left) := by
    rw [hcode, hmask, getD_fromAb_side hloc hprevious, getD_fromAb_side hloc hprevious, Nat.mul_comm 2 c]
    rfl
  rw [getD_map_side, rawExpression, getD_zipWith (hevens.trans hodds.symm) hzero, hexpression]
  cases left <;> rfl

theorem packedMasks_eq : ((List.range 16).map fun i => (List.range (words n)).map fun word =>
      (⟨(transposeU16Block (fillLanes n word (laneMask loc))).getD i 0,
        (transposeU16Block (fillLanes n word (laneMask previous))).getD i 0⟩ : Share 64)) =
    (transposePackU64 .u16 (odds (fromAb loc previous))).take 16 := by
  have hodds := (length_evens_fromAb hloc hprevious).2
  have hlen : ∀ left, ((odds (fromAb loc previous)).map (Share.side left)).length = n := by
    intro left
    rw [List.length_map, hodds]
  refine Eq.trans ?_ (transposePackU64_take .u16 (k := 16) (by decide) (congrArg words hodds)).symm
  refine List.map_congr_left fun i hi => List.map_congr_left fun word _ => ?_
  have hi := List.mem_range.mp hi
  have ha : (transposeU16Block (fillLanes n word (laneMask loc))).getD i 0 =
      plane ((odds (fromAb loc previous)).map Share.a) i word :=
    transposeU16Block_plane _ (hlen true) (fun c _ => laneMask_eq hloc hprevious true c) word hi
  have hb : (transposeU16Block (fillLanes n word (laneMask previous))).getD i 0 =
      plane ((odds (fromAb loc previous)).map Share.b) i word :=
    transposeU16Block_plane _ (hlen false) (fun c _ => laneMask_eq hloc hprevious false c) word hi
  rw [ha, hb]
  rfl

theorem packedExpressions_eq : ((List.range 18).map fun i => (List.range (words n)).map fun word =>
      (⟨(transposeU32Block (fillLanes n word (laneExpression loc))).getD i 0,
        (transposeU32Block (fillLanes n word (laneExpression previous))).getD i 0⟩ : Share 64)) =
    (transposePackU64 .u32 (rawExpression (evens (fromAb loc previous)) (odds (fromAb loc previous)))).take 18 := by
  obtain ⟨hevens, hodds⟩ := length_evens_fromAb hloc hprevious
  have hraw : (rawExpression (evens (fromAb loc previous)) (odds (fromAb loc previous))).length = n := by
    unfold rawExpression
    rw [List.length_zipWith, hevens, hodds, Nat.min_self]
  have hlen : ∀ left, ((rawExpression (evens (fromAb loc previous)) (odds (fromAb loc previous))).map
      (Share.side left)).length = n := by
    intro left
    rw [List.length_map, hraw]
  refine Eq.trans ?_ (transposePackU64_take .u32 (k := 18) (by decide) (congrArg words hraw)).symm
  refine List.map_congr_left fun i hi => List.map_congr_left fun word _ => ?_
  have hi : i < 32 := (List.mem_range.mp hi).trans (by decide)
  have ha : (transposeU32Block (fillLanes n word (laneExpression loc))).getD i 0 =
      plane ((rawExpression (evens (fromAb loc previous)) (odds (fromAb loc previous))).map Share.a) i word :=
    transposeU32Block_plane _ (hlen true) (fun c _ => laneExpression_eq hloc hprevious true c) word hi
  have hb : (transposeU32Block (fillLanes n word (laneExpression previous))).getD i 0 =
      plane ((rawExpression (evens (fromAb loc previous)) (odds (fromAb loc previous))).map Share.b) i word :=
    transposeU32Block_plane _ (hlen false) (fun c _ => laneExpression_eq hloc hprevious false c) word hi
  rw [ha, hb]
  rfl

/-- **The packed components are the packed dense shares.** -/
theorem packAnonStatsComponents_eq :
    packAnonStatsComponents loc previous = .ok ((transposePackU64 .u16 (odds (fromAb loc previous))).take 16,
      (transposePackU64 .u32
        (rawExpression (evens (fromAb loc previous)) (odds (fromAb loc previous)))).take 18) := by
  have hcount : 2 * n / 2 = n := by omega
  have heven : 2 * n % 2 = 0 := by omega
  unfold packAnonStatsComponents
  simp only [hloc, hprevious, ne_eq, not_true_eq_false, if_false, heven, hcount]
  rw [← packedMasks_eq hloc hprevious, ← packedExpressions_eq hloc hprevious]
  rfl

end Packed

/-! ## The projections -/

theorem vecShareXorAssign_map {K : Nat} {α : Type} (f g : α → Share K) (xs : List α) :
    vecShareXorAssign (xs.map f) (xs.map g) = xs.map fun x => f x ^^^ g x := by
  induction xs with
  | nil => rfl
  | cons x xs ih => exact congrArg _ ih

theorem transposedPackXorAssign_map {K : Nat} {α : Type} (f g : α → Share K) (xss : List (List α)) :
    transposedPackXorAssign (xss.map (List.map f)) (xss.map (List.map g)) =
      xss.map (List.map fun x => f x ^^^ g x) := by
  induction xss with
  | nil => rfl
  | cons xs xss ih =>
    show vecShareXorAssign (xs.map f) (xs.map g) :: transposedPackXorAssign _ _ = _
    rw [vecShareXorAssign_map, ih]
    rfl

theorem transposedPackXor_map {K : Nat} {α : Type} (f g : α → Share K) (xss : List (List α)) :
    transposedPackXor (xss.map (List.map f)) (xss.map (List.map g)) = xss.map (List.map fun x => f x ^^^ g x) := by
  unfold transposedPackXor vecShareXor
  rw [List.zipWith_map, List.zipWith_self]
  refine List.map_congr_left fun xs _ => ?_
  rw [List.zipWith_map, List.zipWith_self]

/-- The projection of one share. -/
def projectShare (role : Party) (componentMask : BitVec 8) (x : Share 64) : Share 64 :=
  ⟨if componentMask &&& (1#8 <<< role.val) != 0 then x.a else 0,
    if componentMask &&& (1#8 <<< ((role.val + 2) % 3)) != 0 then x.b else 0⟩

/-- The components of a share that are added, for each role. -/
theorem projectShare_eq (s : Session) (x : Share 64) :
    (a2bPre s x).1 ^^^ ((a2bPre s x).2.1 ^^^ (a2bPre s x).2.2) = x ∧
    (a2bPre s x).1 ^^^ (a2bPre s x).2.2 = projectShare s.ownRole 0b101#8 x ∧
    (a2bPre s x).2.1 ^^^ (a2bPre s x).2.2 = projectShare s.ownRole 0b110#8 x ∧
    (a2bPre s x).2.2 = projectShare s.ownRole 0b100#8 x := by
  obtain ⟨role, sid⟩ := s
  fin_cases role <;> refine ⟨Share.ext ?_ ?_, Share.ext ?_ ?_, Share.ext ?_ ?_, Share.ext ?_ ?_⟩ <;>
    simp [a2bPre, projectShare]

/-- The parts are the projections: each component of a share is split off by the party's role. -/
theorem packedParts_eq (s : Session) (packed : List (List (Share 64))) :
    packedParts s packed = denseParts s packed := by
  have hproject : ∀ m, projectPackedComponents s packed m = packed.map (List.map (projectShare s.ownRole m)) :=
    fun m => rfl
  have h13 := fun x => (projectShare_eq s x).2.1
  have h23 := fun x => (projectShare_eq s x).2.2.1
  have h3 := fun x => (projectShare_eq s x).2.2.2
  have hsum : ∀ x, (a2bPre s x).1 ^^^ projectShare s.ownRole 0b110#8 x = x := by
    intro x
    rw [← h23]
    exact (projectShare_eq s x).1
  unfold packedParts denseParts splitPackedAdditiveComponents a2bPlanes
  simp only [hproject, transposedPackXorAssign_map, transposedPackXor_map, h13, h23]
  simp only [hsum, h3, List.map_id_fun', List.map_id]

/-! ## The selection -/

section Select

variable {n : Nat} {loc previous : List (BitVec 16)} (hloc : loc.length = 2 * n) (hprevious : previous.length = 2 * n)

include hloc

theorem len_fusedFhdDotShares : (FusedFhdDotShares.mk loc previous).len = n := by
  show loc.length / 2 = n
  omega

include hprevious

theorem shareAt_ok {offset : Nat} (h : offset < 2 * n) :
    (FusedFhdDotShares.mk loc previous).shareAt offset = .ok ((fromAb loc previous).getD offset 0) := by
  have hl : offset < loc.length := by omega
  have hp : offset < previous.length := by omega
  unfold FusedFhdDotShares.shareAt fromAb
  simp [hl, hp]

/-- The two shares of a comparison. -/
theorem shareAt_pair {index : Nat} (h : index < n) :
    (FusedFhdDotShares.mk loc previous).shareAt (index * 2) = .ok ((evens (fromAb loc previous)).getD index 0) ∧
    (FusedFhdDotShares.mk loc previous).shareAt (index * 2 + 1) =
      .ok ((odds (fromAb loc previous)).getD index 0) := by
  obtain ⟨heven, hodd⟩ := getD_evens_odds (fromAb loc previous) 0 index
  rw [heven, hodd, Nat.mul_comm]
  exact ⟨shareAt_ok hloc hprevious (by omega), shareAt_ok hloc hprevious (by omega)⟩

theorem select_ok {indices : List Nat} (h : ∀ index ∈ indices, index < n) :
    (FusedFhdDotShares.mk loc previous).select indices = .ok
      (indices.map fun index => (evens (fromAb loc previous)).getD index 0,
        indices.map fun index => (odds (fromAb loc previous)).getD index 0) := by
  induction indices with
  | nil => rfl
  | cons index indices ih =>
    have hindex := h index List.mem_cons_self
    obtain ⟨hcode, hmask⟩ := shareAt_pair hloc hprevious hindex
    unfold FusedFhdDotShares.select
    rw [len_fusedFhdDotShares hloc, if_neg (not_not.mpr hindex)]
    simp only [hcode, hmask, ih fun i hi => h i (List.mem_cons_of_mem _ hi)]
    rfl

theorem select_oob {indices : List Nat} (h : ∃ index ∈ indices, ¬ index < n) :
    ∃ msg, (FusedFhdDotShares.mk loc previous).select indices = .bail msg := by
  induction indices with
  | nil =>
    obtain ⟨index, hmem, -⟩ := h
    cases hmem
  | cons index indices ih =>
    unfold FusedFhdDotShares.select
    rw [len_fusedFhdDotShares hloc]
    by_cases hindex : index < n
    · obtain ⟨hcode, hmask⟩ := shareAt_pair hloc hprevious hindex
      have htail : ∃ i ∈ indices, ¬ i < n := by
        obtain ⟨i, hi, hlt⟩ := h
        rcases List.mem_cons.mp hi with rfl | hi
        · exact absurd hindex hlt
        · exact ⟨i, hi, hlt⟩
      obtain ⟨msg, hmsg⟩ := ih htail
      refine ⟨msg, ?_⟩
      rw [if_neg (not_not.mpr hindex)]
      simp only [hcode, hmask, hmsg]
      rfl
    · exact ⟨_, if_pos hindex⟩

/-- The selection fails exactly when an index is out of bounds. -/
theorem select_bail_iff (indices : List Nat) :
    (∃ msg, (FusedFhdDotShares.mk loc previous).select indices = .bail msg) ↔
      ∃ index ∈ indices, ¬ index < n := by
  refine ⟨fun h => ?_, select_oob hloc hprevious⟩
  by_contra hall
  have hlt : ∀ index ∈ indices, index < n := by
    intro index hmem
    by_contra hindex
    exact hall ⟨index, hmem, hindex⟩
  obtain ⟨msg, hmsg⟩ := h
  rw [select_ok hloc hprevious hlt] at hmsg
  cases hmsg

end Select

/-! ## The two paths -/

section Paths

variable {R : Type} [Rng R] {n : Nat}

/-- From the refreshed components on, the two programs of a party are the same. -/
theorem extractAnonStatsMsbBatchFromComponents_eq (s : Session) {loc previous : List (BitVec 16)}
    (hloc : loc.length = 2 * n) (hprevious : previous.length = 2 * n) :
    (extractAnonStatsMsbBatchFromComponents s loc previous : Proc R _) =
      extractAnonStatsMsbBatch s (evens (fromAb loc previous)) (odds (fromAb loc previous)) := by
  obtain ⟨hevens, hodds⟩ := length_evens_fromAb hloc hprevious
  by_cases hn : n = 0
  · subst hn
    cases List.length_eq_zero_iff.mp hloc
    cases List.length_eq_zero_iff.mp hprevious
    rfl
  · have hne : evens (fromAb loc previous) ≠ [] := List.ne_nil_of_length_pos (by omega)
    have hempty : ¬ (loc.isEmpty = true ∧ previous.isEmpty = true) := by
      rintro ⟨h, -⟩
      have hnil := List.isEmpty_iff.mp h
      rw [hnil] at hloc
      simp at hloc
      omega
    have hcount : loc.length / 2 = (evens (fromAb loc previous)).length := by omega
    have hparts : (extractAnonStatsMsbBatchFromComponents s loc previous : Proc R _) =
        Proc.lift (packAnonStatsComponents loc previous) >>= fun packed =>
        binaryAddAnonThresholdFromParts (denseParts s packed.1) (denseParts s packed.2) >>= fun bit17 =>
        pure ((convertToBits bit17).take (loc.length / 2)) := by
      unfold extractAnonStatsMsbBatchFromComponents binaryAddAnonThresholdFromPackedRep3
      simp only [hempty, if_false, packedParts_eq]
    rw [hparts, packAnonStatsComponents_eq hloc hprevious, hcount,
      extractAnonStatsMsbBatch_eq s (hevens.trans hodds.symm) hne]
    rfl

/-- The dense path: the refreshed shares are de-interleaved. -/
def fhdGreaterThanAnonStatsDense (s : Session) (interleavedDots : List (BitVec 16)) :
    Proc R (List (Share 1) × List (Share 16)) := do
  let shares ← galoisRingToRep3 interleavedDots
  let bits ← extractAnonStatsMsbBatch s (evens shares) (odds shares)
  return (bits, shares)

theorem galoisRingToRep3Components_succeeds {items : Party → List (BitVec 16)} {len : Nat}
    (hitems : ∀ p, (items p).length = len) :
    Succeeds (fun p => (galoisRingToRep3Components (items p) : Proc R _)) fun r =>
      (∀ p, (r p).1.length = len ∧ (r p).2.length = len) ∧
        IsReshare len items fun p => fromAb (r p).1 (r p).2 := by
  simp only [galoisRingToRep3Components, hitems]
  refine Succeeds.genRandsBatch fun mine hmine => Succeeds.exchange (Succeeds.lift_bind (fun p => rfl) ?_)
  have hlen := fun p => length_zeroMasked (K := 16) hitems hmine p
  exact Succeeds.pure ⟨fun p => ⟨hlen p, hlen (p - 1)⟩, isReshare_zeroMasked (K := 16) hitems hmine⟩

omit [Rng R] in
theorem shares_evens_odds {v : Party → List (Share 16)} {zs : List (Rep3 16)} (h : Shares v zs) :
    Shares (fun p => evens (v p)) (evens zs) ∧ Shares (fun p => odds (v p)) (odds zs) := by
  refine ⟨fun p => ?_, fun p => ?_⟩
  · show evens (v p) = _
    rw [h p, (evens_odds_map _ zs).1]
  · show odds (v p) = _
    rw [h p, (evens_odds_map _ zs).2]

/-- **The path over components is the dense path**, for every batch of comparisons, session and stream and in every
schedule: both open the same bits and leave the streams at the same positions, and what is selected from the
refreshed components are the dense shares of the selected comparisons. -/
theorem fhdGreaterThanAnonStatsFromGalois_eq_dense (sid : BitVec 32) (n : Nat) (items : Party → List (BitVec 16))
    (hitems : ∀ p, (items p).length = 2 * n) (σ : Party → Prf R) (hσ : Lockstep σ) :
    ∃ (opened : List (BitVec 1)) (dense : Party → List (Share 16)) (fused : Party → FusedFhdDotShares)
      (σ' : Party → Prf R),
      (Network.Settles nextParty (fun p => (fhdGreaterThanAnonStatsDense ⟨p, sid⟩ (items p) >>=
          fun (bits, shares) => openBin bits >>= fun opened => pure (opened, shares)) (σ p)) fun o =>
        ∀ p, o p = (.ok (opened, dense p), σ' p)) ∧
      (Network.Settles nextParty (fun p => (fhdGreaterThanAnonStatsFromGalois ⟨p, sid⟩ (items p) >>=
          fun (bits, shares) => openBin bits >>= fun opened => pure (opened, shares)) (σ p)) fun o =>
        ∀ p, o p = (.ok (opened, fused p), σ' p)) ∧
      opened.length = n ∧
      ∀ p indices,
        ((∀ index ∈ indices, index < n) → (fused p).select indices =
          .ok (indices.map fun index => (evens (dense p)).getD index 0,
            indices.map fun index => (odds (dense p)).getD index 0)) ∧
        ((∃ msg, (fused p).select indices = .bail msg) ↔ ∃ index ∈ indices, ¬ index < n) := by
  obtain ⟨r, σ₁, hrefresh, hσ₁, hlen, zs, hzs, hshares, -⟩ :=
    galoisRingToRep3Components_succeeds (R := R) hitems σ hσ
  obtain ⟨hevens, hodds⟩ := shares_evens_odds hshares
  have hcodes := fun p => (length_evens_fromAb (hlen p).1 (hlen p).2).1
  have hmasks := fun p => (length_evens_fromAb (hlen p).1 (hlen p).2).2
  have hsame : (evens zs).length = (odds zs).length := by
    rw [← hevens.length 0, ← hodds.length 0, hcodes, hmasks]
  have hcircuit := extractAnonStatsMsbBatch_carries (R := R) (C := True) sid hcodes hmasks hsame (fun _ => hevens)
    fun _ => hodds
  obtain ⟨bits, σ₂, hextract, hσ₂, hbitsLen, hbits⟩ := hcircuit σ₁ hσ₁
  obtain ⟨ws, hws, hxor⟩ := hbits trivial
  obtain ⟨r', σ', hopen, -, hopened⟩ := openBin_succeeds (R := R) hws σ₂ hσ₂
  have hsecrets : r' = fun _ => ws.map Rep3.xor := funext hopened
  subst hsecrets
  -- the program after the refresh only has to agree on the refreshed components
  have hrun : ∀ {γ : Type} (extract : Party → List (BitVec 16) × List (BitVec 16) → Proc R (List (Share 1)))
      (holder : List (BitVec 16) × List (BitVec 16) → γ), (∀ p, extract p (r p) =
        extractAnonStatsMsbBatch ⟨p, sid⟩ (evens (fromAb (r p).1 (r p).2)) (odds (fromAb (r p).1 (r p).2))) →
      Joint (fun p => galoisRingToRep3Components (items p) >>= fun x => extract p x >>= fun bits =>
        openBin bits >>= fun opened => pure (opened, holder x)) σ
        (fun p => .ok (ws.map Rep3.xor, holder (r p))) σ' := by
    intro γ extract holder hextract'
    refine hrefresh.bind ?_
    simp only [hextract']
    refine hextract.bind (hopen.bind ?_)
    exact Joint.pure (fun p => (ws.map Rep3.xor, holder (r p))) σ'
  refine ⟨ws.map Rep3.xor, fun p => fromAb (r p).1 (r p).2, fun p => ⟨(r p).1, (r p).2⟩, σ', ?_, ?_, ?_,
    fun p indices => ⟨select_ok (hlen p).1 (hlen p).2, select_bail_iff (hlen p).1 (hlen p).2 indices⟩⟩
  · have hdense := hrun (fun p x => extractAnonStatsMsbBatch ⟨p, sid⟩ (evens (fromAb x.1 x.2))
      (odds (fromAb x.1 x.2))) (fun x => fromAb x.1 x.2) fun p => rfl
    simp only [fhdGreaterThanAnonStatsDense, galoisRingToRep3, bind_assoc, pure_bind]
    exact Network.Completes.settles hdense fun p => rfl
  · have hfused := hrun (fun p x => extractAnonStatsMsbBatchFromComponents ⟨p, sid⟩ x.1 x.2)
      (fun x => FusedFhdDotShares.mk x.1 x.2) fun p =>
        extractAnonStatsMsbBatchFromComponents_eq ⟨p, sid⟩ (hlen p).1 (hlen p).2
    have heven : ∀ p, ¬ (items p).length % 2 ≠ 0 := by
      intro p
      rw [hitems]
      omega
    simp only [fhdGreaterThanAnonStatsFromGalois, heven, if_false, bind_assoc, pure_bind]
    exact Network.Completes.settles hfused fun p => rfl
  · rw [hxor, List.length_map, List.length_range]

/-- Shares of three comparisons. -/
def threeItems : Party → List (BitVec 16) :=
  ![[3, 20, 7, 1, 65530, 9], [4, 0, 5, 2, 65000, 0], [0, 7, 65535, 6, 300, 3]]

theorem fhdGreaterThanAnonStatsFromGalois_eq_dense_three :
    ∃ (opened : List (BitVec 1)) (dense : Party → List (Share 16)) (fused : Party → FusedFhdDotShares)
      (σ' : Party → Prf StepRng),
      (Network.Settles nextParty (fun p => (fhdGreaterThanAnonStatsFromGalois ⟨p, 1⟩ (threeItems p) >>=
          fun (bits, shares) => openBin bits >>= fun opened => pure (opened, shares)) (stepStreams p)) fun o =>
        ∀ p, o p = (.ok (opened, fused p), σ' p)) ∧
      opened.length = 3 ∧
      (fused 2).select [2, 0, 2] = .ok ([2, 0, 2].map fun index => (evens (dense 2)).getD index 0,
        [2, 0, 2].map fun index => (odds (dense 2)).getD index 0) ∧
      ∃ msg, (fused 2).select [0, 3] = .bail msg := by
  have hitems : ∀ p : Party, (threeItems p).length = 2 * 3 := by decide
  obtain ⟨opened, dense, fused, σ', -, hfused, hlen, hselect⟩ :=
    fhdGreaterThanAnonStatsFromGalois_eq_dense 1 3 threeItems hitems stepStreams lockstep_stepStreams
  exact ⟨opened, dense, fused, σ', hfused, hlen, (hselect 2 [2, 0, 2]).1 (by decide),
    (hselect 2 [0, 3]).2.mpr (by decide)⟩

end Paths

end AmpcCommon.Protocol
