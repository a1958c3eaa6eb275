import AmpcCommon.Protocol.Shuffle
import AmpcCommon.Protocol.Proofs.SplitProofs

/-!
# Random permutations, proofs

Every permutation is drawn from one stream (`drawPermutation`), so that the two parties that share the stream
draw the same one. The sampling ends with enough fuel, if the generator does not return rejected values forever
(`SamplingEnds`). A permutation moves triplets, whatever their elements are (`shuffled_map`).
-/

namespace AmpcCommon.Protocol

variable {R : Type} [Rng R]

/-! ## Random permutations -/

section Permutations

variable (fuel : Nat)

/-- `slice::swap`, for positions in the list. -/
def swapped (l : List Nat) (i j : Nat) : List Nat := (l.set i (l.getD j 0)).set j (l.getD i 0)

/-- The rounds of `gen_permutation` on one stream. -/
def drawLoop : Nat → Nat → List Nat → R → Option (List Nat × R)
  | 0, _, perm, rng => some (perm, rng)
  | n + 1, i, perm, rng =>
    match sampleLoop (i + 1) fuel rng with
    | none => none
    | some (j, rng) => drawLoop n (i + 1) (swapped perm i j) rng

/-- The permutation that `gen_permutation` draws from one stream; `none` when the sampling does not end. -/
def drawPermutation (size : Nat) (rng : R) : Option (List Nat × R) :=
  drawLoop fuel (size - 1) 1 (List.range size) rng

variable {fuel}

theorem swap_eq {l : List Nat} {i j : Nat} (hi : i < l.length) (hj : j < l.length) :
    swap l i j = .ok (swapped l i j) := by
  unfold swap swapped
  rw [List.getElem?_eq_getElem hi, List.getElem?_eq_getElem hj, List.getD_eq_getElem _ _ hi,
    List.getD_eq_getElem _ _ hj]

theorem swapped_perm {l : List Nat} {i j : Nat} (hi : i < l.length) (hj : j < l.length) :
    (swapped l i j).Perm l := by
  unfold swapped
  rw [List.getD_eq_getElem _ _ hi, List.getD_eq_getElem _ _ hj]
  exact List.set_set_perm hi hj

theorem sampleLoop_lt {modulus fuel : Nat} (hm : 0 < modulus) {rng : R} {v : Nat} {rng' : R}
    (h : sampleLoop modulus fuel rng = some (v, rng')) : v < modulus := by
  induction fuel generalizing rng with
  | zero => cases h
  | succ fuel ih =>
    rw [sampleLoop] at h
    dsimp only at h
    split at h
    next =>
      cases h
      exact Nat.mod_lt _ hm
    next => exact ih h

/-- The two streams are drawn from alike: the loop is one loop on each of them. -/
theorem permutationLoop_eq {n i size : Nat} {permA permB : List Nat} (hn : i + n ≤ size)
    (hA : permA.length = size) (hB : permB.length = size) (prf : Prf R) :
    permutationLoop fuel n i permA permB prf =
      match drawLoop fuel n i permA prf.myPrf, drawLoop fuel n i permB prf.prevPrf with
      | some (permA, rngA), some (permB, rngB) => .pure (.ok (permA, permB), ⟨rngA, rngB⟩)
      | _, _ => .spin := by
  induction n generalizing i permA permB prf with
  | zero => rfl
  | succ n ih =>
    obtain ⟨a, b⟩ := prf
    rw [permutationLoop]
    have hmine : (mineU32Mod fuel (i + 1) : Proc R Nat) ⟨a, b⟩ =
        match sampleLoop (i + 1) fuel a with
        | none => .spin
        | some (j, rng) => .pure (.ok j, ⟨rng, b⟩) := by
      unfold mineU32Mod genU32Mod
      rw [if_neg (Nat.succ_ne_zero i)]
      cases sampleLoop (i + 1) fuel a <;> rfl
    have hprev : ∀ a, (prevU32Mod fuel (i + 1) : Proc R Nat) ⟨a, b⟩ =
        match sampleLoop (i + 1) fuel b with
        | none => .spin
        | some (j, rng) => .pure (.ok j, ⟨a, rng⟩) := by
      intro a
      unfold prevU32Mod genU32Mod
      rw [if_neg (Nat.succ_ne_zero i)]
      cases sampleLoop (i + 1) fuel b <;> rfl
    rw [Proc.bind_apply, hmine, drawLoop, drawLoop]
    cases ha : sampleLoop (i + 1) fuel a with
    | none => rfl
    | some va =>
      obtain ⟨ja, rngA⟩ := va
      show ((prevU32Mod fuel (i + 1) >>= _) : Proc R _) ⟨rngA, b⟩ = _
      rw [Proc.bind_apply, hprev]
      cases hb : sampleLoop (i + 1) fuel b with
      | none =>
        dsimp only
        cases drawLoop fuel n (i + 1) (swapped permA i ja) rngA <;> rfl
      | some vb =>
        obtain ⟨jb, rngB⟩ := vb
        have hja := sampleLoop_lt (Nat.succ_pos i) ha
        have hjb := sampleLoop_lt (Nat.succ_pos i) hb
        show (Proc.lift (swap permA i ja) >>= fun permA => Proc.lift (swap permB i jb) >>= fun permB =>
          permutationLoop fuel n (i + 1) permA permB) ⟨rngA, rngB⟩ = _
        rw [swap_eq (by omega) (by omega), swap_eq (by omega) (by omega), Proc.lift_ok, pure_bind, Proc.lift_ok,
          pure_bind]
        exact ih (by omega) ((swapped_perm (by omega) (by omega)).length_eq.trans hA)
          ((swapped_perm (by omega) (by omega)).length_eq.trans hB) ⟨rngA, rngB⟩

theorem genPermutation_eq {size : Nat} (prf : Prf R) :
    genPermutation fuel size prf =
      match drawPermutation fuel size prf.myPrf, drawPermutation fuel size prf.prevPrf with
      | some (permA, rngA), some (permB, rngB) => .pure (.ok (permA, permB), ⟨rngA, rngB⟩)
      | _, _ => .spin := by
  unfold genPermutation drawPermutation
  rcases Nat.eq_zero_or_pos size with rfl | hpos
  · rfl
  · exact permutationLoop_eq (by omega) List.length_range List.length_range prf

theorem drawLoop_perm {n i size : Nat} {perm perm' : List Nat} {rng rng' : R} (hn : i + n ≤ size)
    (hlen : perm.length = size) (h : drawLoop fuel n i perm rng = some (perm', rng')) : perm'.Perm perm := by
  induction n generalizing i perm rng with
  | zero =>
    cases h
    exact List.Perm.refl _
  | succ n ih =>
    rw [drawLoop] at h
    split at h
    next => cases h
    next j rng₁ hj =>
      have hji := sampleLoop_lt (Nat.succ_pos i) hj
      have hswap := swapped_perm (l := perm) (i := i) (j := j) (by omega) (by omega)
      exact (ih (by omega) (hswap.length_eq.trans hlen) h).trans hswap

/-- What is drawn is a permutation. -/
theorem drawPermutation_perm {size : Nat} {perm : List Nat} {rng rng' : R}
    (h : drawPermutation fuel size rng = some (perm, rng')) : perm.Perm (List.range size) := by
  unfold drawPermutation at h
  rcases Nat.eq_zero_or_pos size with rfl | hpos
  · cases h
    exact List.Perm.refl _
  · exact drawLoop_perm (by omega) List.length_range h

/-! ### Enough fuel -/

variable (R) in
/-- The generator does not return values that are rejected forever. -/
def SamplingEnds : Prop :=
  ∀ modulus, 0 < modulus → modulus ≤ 2 ^ 32 → ∀ rng : R, ∃ fuel, (sampleLoop modulus fuel rng).isSome

theorem sampleLoop_mono {modulus fuel fuel' : Nat} (hle : fuel ≤ fuel') {rng : R} {v : Nat × R}
    (h : sampleLoop modulus fuel rng = some v) : sampleLoop modulus fuel' rng = some v := by
  induction fuel generalizing fuel' rng with
  | zero => cases h
  | succ fuel ih =>
    obtain ⟨k, rfl⟩ := Nat.exists_eq_add_of_le' hle
    rw [Nat.add_succ, sampleLoop]
    rw [sampleLoop] at h
    dsimp only at h ⊢
    split
    next hacc =>
      rw [if_pos hacc] at h
      exact h
    next hrej =>
      rw [if_neg hrej] at h
      exact ih (Nat.le_add_left fuel k) h

theorem exists_fuel_drawLoop (hends : SamplingEnds R) {n i : Nat} (hle : i + n ≤ 2 ^ 32) (perm : List Nat)
    (rng : R) : ∃ F, ∀ fuel, F ≤ fuel → (drawLoop fuel n i perm rng).isSome := by
  induction n generalizing i perm rng with
  | zero => exact ⟨0, fun _ _ => rfl⟩
  | succ n ih =>
    obtain ⟨fuel₀, h₀⟩ := hends (i + 1) (Nat.succ_pos i) (by omega) rng
    obtain ⟨⟨j, rng'⟩, hj⟩ := Option.isSome_iff_exists.mp h₀
    obtain ⟨F, hF⟩ := ih (i := i + 1) (by omega) (swapped perm i j) rng'
    refine ⟨max fuel₀ F, fun fuel hfuel => ?_⟩
    rw [drawLoop, sampleLoop_mono (le_of_max_le_left hfuel) hj]
    exact hF fuel (le_of_max_le_right hfuel)

theorem exists_fuel_drawPermutation (hends : SamplingEnds R) {size : Nat} (hlt : size < 2 ^ 32) (rng : R) :
    ∃ F, ∀ fuel, F ≤ fuel → (drawPermutation fuel size rng).isSome :=
  exists_fuel_drawLoop hends (by omega) _ rng

end Permutations

/-! ## Moving triplets -/

section Triplets

variable {α β γ : Type}

theorem chunks_append {size : Nat} (hsize : 0 < size) {x rest : List α} (hx : x.length = size) :
    chunks size (x ++ rest) = x :: chunks size rest := by
  have hcount : ((x ++ rest).length + size - 1) / size = (rest.length + size - 1) / size + 1 := by
    rw [List.length_append, hx, show size + rest.length + size - 1 = rest.length + size - 1 + size by omega,
      Nat.add_div_right _ hsize]
  unfold chunks
  rw [hcount, List.range_succ_eq_map, List.map_cons, List.map_map]
  congr 1
  · rw [Nat.mul_zero, List.drop_zero, ← hx, List.take_left]
  · refine List.map_congr_left fun j _ => ?_
    rw [Function.comp_apply, Nat.mul_succ, Nat.add_comm, ← List.drop_drop, ← hx, List.drop_left]

/-- The chunks of joined batches are the batches. -/
theorem chunks_flatten {size : Nat} (hsize : 0 < size) {batches : List (List α)}
    (h : ∀ b ∈ batches, b.length = size) : chunks size batches.flatten = batches := by
  induction batches with
  | nil =>
    unfold chunks
    rw [List.flatten_nil, List.length_nil, Nat.div_eq_of_lt (by omega)]
    rfl
  | cons b batches ih =>
    rw [List.flatten_cons, chunks_append hsize (h b List.mem_cons_self),
      ih fun x hx => h x (List.mem_cons_of_mem _ hx)]

/-- A list whose length is a multiple of `size` consists of batches. -/
theorem exists_batches {size count : Nat} {l : List α} (h : l.length = count * size) :
    ∃ batches : List (List α), l = batches.flatten ∧ batches.length = count ∧ ∀ b ∈ batches, b.length = size := by
  induction count generalizing l with
  | zero =>
    rw [Nat.zero_mul] at h
    exact ⟨[], List.length_eq_zero_iff.mp h, rfl, by simp⟩
  | succ count ih =>
    rw [Nat.succ_mul] at h
    have hdrop : (l.drop size).length = count * size := by
      rw [List.length_drop]
      omega
    obtain ⟨batches, hl, hlen, hb⟩ := ih hdrop
    refine ⟨l.take size :: batches, ?_, by rw [List.length_cons, hlen], ?_⟩
    · rw [List.flatten_cons, ← hl, List.take_append_drop]
    · intro b hmem
      rcases List.mem_cons.mp hmem with rfl | hmem
      · rw [List.length_take]
        omega
      · exact hb b hmem

theorem chunks_map (f : α → β) (size : Nat) (l : List α) :
    chunks size (l.map f) = (chunks size l).map (List.map f) := by
  simp only [chunks, List.length_map, List.map_map, ← List.map_drop, ← List.map_take]
  rfl

/-- The triplets of every batch, in the order of the permutation. -/
def shuffled (perm : List Nat) (size : Nat) (data : List α) : List α :=
  (chunks (size * 3) data).flatMap fun batch => perm.flatMap fun i => (batch.drop (i * 3)).take 3

theorem shuffled_map (f : α → β) (perm : List Nat) (size : Nat) (data : List α) :
    shuffled perm size (data.map f) = (shuffled perm size data).map f := by
  simp only [shuffled, chunks_map, List.map_flatMap, List.flatMap_map, ← List.map_drop, ← List.map_take]

/-- Elementwise operations commute with the shuffle. -/
theorem shuffled_zipWith (op : α → β → γ) (perm : List Nat) (size : Nat) {a : List α} {b : List β}
    (h : a.length = b.length) :
    List.zipWith op (shuffled perm size a) (shuffled perm size b) = shuffled perm size (List.zipWith op a b) := by
  obtain ⟨zs, rfl, rfl⟩ := exists_zip h
  simp only [shuffled_map, List.zipWith_map, List.zipWith_self]

variable {perm : List Nat} {size count : Nat}

theorem shuffleTriplets_eq (hsize : 0 < size) (hperm : ∀ i ∈ perm, i < size) {data : List α}
    (hlen : data.length = count * (size * 3)) :
    shuffleTriplets perm data size = .ok (shuffled perm size data) := by
  obtain ⟨batches, rfl, -, hb⟩ := exists_batches hlen
  have hpos : 0 < size * 3 := by omega
  have htriplet : ∀ batch ∈ batches, (perm.mapM (triplet batch) >>= fun triplets =>
      (.ok triplets.flatten : Outcome (List α))) = .ok (perm.flatMap fun i => (batch.drop (i * 3)).take 3) := by
    intro batch hbatch
    have hok : perm.mapM (triplet batch) = .ok (perm.map fun i => (batch.drop (i * 3)).take 3) := by
      refine Outcome.mapM_eq_ok fun i hi => ?_
      have hi := hperm i hi
      unfold triplet
      rw [if_pos (by rw [hb batch hbatch]; omega)]
    rw [hok, List.flatMap_def]
    rfl
  unfold shuffleTriplets shuffled
  rw [if_neg (by omega), chunks_flatten hpos hb]
  show (batches.mapM fun batch => perm.mapM (triplet batch) >>= fun triplets =>
    (.ok triplets.flatten : Outcome (List α))) >>= _ = _
  rw [Outcome.mapM_eq_ok htriplet, List.flatMap_def]
  rfl

theorem length_shuffled (hsize : 0 < size) (hperm : ∀ i ∈ perm, i < size) {data : List α}
    (hlen : data.length = count * (size * 3)) : (shuffled perm size data).length = count * (perm.length * 3) := by
  obtain ⟨batches, rfl, hcount, hb⟩ := exists_batches hlen
  unfold shuffled
  rw [chunks_flatten (by omega) hb, List.length_flatMap]
  have hbatch : ∀ batch ∈ batches, (perm.flatMap fun i => (batch.drop (i * 3)).take 3).length =
      perm.length * 3 := by
    intro batch hmem
    rw [List.length_flatMap]
    have hthree : (perm.map fun i => ((batch.drop (i * 3)).take 3).length) = perm.map fun _ => 3 := by
      refine List.map_congr_left fun i hi => ?_
      have hi := hperm i hi
      rw [List.length_take, List.length_drop, hb batch hmem]
      omega
    rw [hthree]
    simp
  rw [List.map_congr_left hbatch]
  simp [hcount]

/-! ### Triples -/

/-- The elements of triples. -/
def flatTriples (xs : List (α × α × α)) : List α := xs.flatMap fun x => [x.1, x.2.1, x.2.2]

/-- Group elements by three. -/
def triples : List α → List (α × α × α)
  | a :: b :: c :: rest => (a, b, c) :: triples rest
  | _ => []

@[simp] theorem length_flatTriples (xs : List (α × α × α)) : (flatTriples xs).length = xs.length * 3 := by
  simp [flatTriples, List.length_flatMap]

theorem triples_flatTriples (xs : List (α × α × α)) : triples (flatTriples xs) = xs := by
  induction xs with
  | nil => rfl
  | cons x xs ih => exact congrArg (x :: ·) ih

theorem triples_map (f : α → β) (l : List α) :
    triples (l.map f) = (triples l).map fun x => (f x.1, f x.2.1, f x.2.2) := by
  fun_induction triples l with
  | case1 a b c rest ih => exact congrArg (_ :: ·) ih
  | case2 l h =>
    match l, h with
    | [], _ => rfl
    | [_], _ => rfl
    | [_, _], _ => rfl
    | a :: b :: c :: rest, h => exact absurd rfl (h a b c rest)

theorem flatTriples_map (f : α → β) (xs : List (α × α × α)) :
    flatTriples (xs.map fun x => (f x.1, f x.2.1, f x.2.2)) = (flatTriples xs).map f := by
  unfold flatTriples
  rw [List.flatMap_map, List.map_flatMap]
  rfl

theorem length_triples {l : List α} {n : Nat} (h : l.length = n * 3) : (triples l).length = n := by
  induction n generalizing l with
  | zero =>
    rw [Nat.zero_mul] at h
    rw [List.length_eq_zero_iff.mp h]
    rfl
  | succ n ih =>
    match l, h with
    | [], h => exact absurd h (by simp)
    | [_], h => exact absurd h (by simp; omega)
    | [_, _], h => exact absurd h (by simp; omega)
    | a :: b :: c :: rest, h =>
      simp only [List.length_cons] at h
      show (triples rest).length + 1 = n + 1
      rw [ih (by omega)]

/-- The elements of a list in the order of the permutation. -/
def permuted [Inhabited α] (perm : List Nat) (xs : List α) : List α := perm.map fun i => xs.getD i default

/-- The permutation `i ↦ pi01[pi20[pi12[i]]]`. -/
def composed (pi01 pi20 pi12 : List Nat) : List Nat := pi12.map fun i => pi01.getD (pi20.getD i 0) 0

theorem map_getD_range (l : List Nat) {n : Nat} (h : l.length = n) :
    ((List.range n).map fun i => l.getD i 0) = l := by
  refine List.ext_getElem (by simp [h]) fun i hi hi' => ?_
  simp [hi']

theorem composed_perm {n : Nat} {pi01 pi20 pi12 : List Nat} (h01 : pi01.Perm (List.range n))
    (h20 : pi20.Perm (List.range n)) (h12 : pi12.Perm (List.range n)) :
    (composed pi01 pi20 pi12).Perm (List.range n) := by
  have hlen : ∀ {l : List Nat}, l.Perm (List.range n) → l.length = n := by
    intro l h
    rw [h.length_eq, List.length_range]
  calc (composed pi01 pi20 pi12).Perm ((List.range n).map fun i => pi01.getD (pi20.getD i 0) 0) := h12.map _
    _ = (((List.range n).map fun i => pi20.getD i 0).map fun i => pi01.getD i 0) := by
      rw [List.map_map]
      rfl
    _ = pi20.map fun i => pi01.getD i 0 := by rw [map_getD_range pi20 (hlen h20)]
    List.Perm _ ((List.range n).map fun i => pi01.getD i 0) := h20.map _
    _ = pi01 := map_getD_range pi01 (hlen h01)
    List.Perm _ (List.range n) := h01

/-- Permutations compose. -/
theorem permuted_permuted [Inhabited α] {n : Nat} {pi01 pi20 pi12 : List Nat} (h01 : pi01.length = n)
    (h20 : pi20.Perm (List.range n)) (h12 : ∀ i ∈ pi12, i < n) (xs : List α) :
    permuted pi12 (permuted pi20 (permuted pi01 xs)) = permuted (composed pi01 pi20 pi12) xs := by
  unfold permuted composed
  rw [List.map_map]
  refine List.map_congr_left fun i hi => ?_
  have hi20 : i < pi20.length := by
    rw [h20.length_eq, List.length_range]
    exact h12 i hi
  have hi01 : pi20[i] < pi01.length := by
    rw [h01]
    exact List.mem_range.mp (h20.mem_iff.mp (List.getElem_mem _))
  simp [hi20, hi01]

theorem drop_flatTriples [Inhabited α] {xs : List (α × α × α)} {i : Nat} (hi : i < xs.length) :
    ((flatTriples xs).drop (i * 3)).take 3 =
      [(xs.getD i default).1, (xs.getD i default).2.1, (xs.getD i default).2.2] := by
  induction xs generalizing i with
  | nil => cases hi
  | cons x xs ih =>
    cases i with
    | zero => rfl
    | succ i =>
      have hcons : flatTriples (x :: xs) = x.1 :: x.2.1 :: x.2.2 :: flatTriples xs := rfl
      rw [hcons, Nat.succ_mul, List.drop_succ_cons, List.drop_succ_cons, List.drop_succ_cons,
        ih (Nat.lt_of_succ_lt_succ hi)]
      rfl

/-- On triples, the shuffle moves whole triples within their batch. -/
theorem shuffled_flatTriples [Inhabited α] (hsize : 0 < size) (hperm : ∀ i ∈ perm, i < size)
    {batches : List (List (α × α × α))} (hb : ∀ b ∈ batches, b.length = size) :
    shuffled perm size (flatTriples batches.flatten) = flatTriples (batches.map (permuted perm)).flatten := by
  have hflat : ∀ bs : List (List (α × α × α)), flatTriples bs.flatten = (bs.map flatTriples).flatten := by
    intro bs
    induction bs with
    | nil => rfl
    | cons b bs ih =>
      rw [List.map_cons, List.flatten_cons, List.flatten_cons, ← ih]
      exact List.flatMap_append
  have hlen : ∀ b ∈ batches.map flatTriples, b.length = size * 3 := by
    intro b hmem
    obtain ⟨x, hx, rfl⟩ := List.mem_map.mp hmem
    rw [length_flatTriples, hb x hx]
  rw [hflat, hflat]
  unfold shuffled
  rw [chunks_flatten (by omega) hlen, List.flatMap_map, List.flatMap_def, List.map_map]
  refine congrArg List.flatten (List.map_congr_left fun b hmem => ?_)
  show (perm.flatMap fun i => ((flatTriples b).drop (i * 3)).take 3) = flatTriples (permuted perm b)
  unfold permuted
  conv_rhs => rw [flatTriples, List.flatMap_map]
  refine List.flatMap_congr fun i hi => ?_
  exact drop_flatTriples (by rw [hb b hmem]; exact hperm i hi)

end Triplets

end AmpcCommon.Protocol
