import AmpcCommon.Protocol.Proofs.ShuffleProofs
import Mathlib.Data.Set.Function
import Mathlib.Order.Bounds.Basic
import Mathlib.SetTheory.Cardinal.Finite

/-!
# Uniform permutations, proofs

`gen_u32_mod` accepts the values below the largest multiple of the modulus, so every residue is returned for equally
many of them (`card_residue`). The rounds of `gen_permutation` are swaps by a sequence of indices (`swaps`), and every
permutation comes from exactly one sequence: the position of the largest element is the last index, and undoing the last
swap leaves a permutation of one element less (`permutationOf_bijOn`).
-/

namespace AmpcCommon.Protocol

/-! ## Residues -/

theorem rejectionBound_eq {modulus : Nat} : rejectionBound modulus = 2 ^ 64 - 1 - 2 ^ 64 % modulus := by
  have hmod : ((2 ^ 64 - 1) % modulus + 1) % modulus = 2 ^ 64 % modulus := by
    rw [Nat.mod_add_mod]
    norm_num
  unfold rejectionBound
  dsimp only
  rw [hmod]

theorem le_rejectionBound_iff {modulus : Nat} (hpos : 1 ≤ modulus) (hlt : modulus < 2 ^ 32) (v : Nat) :
    v ≤ rejectionBound modulus ↔ v < 2 ^ 64 / modulus * modulus := by
  have hmod : 2 ^ 64 % modulus < modulus := Nat.mod_lt _ hpos
  have hdiv : 2 ^ 64 / modulus * modulus + 2 ^ 64 % modulus = 2 ^ 64 := Nat.div_add_mod' _ _
  rw [rejectionBound_eq]
  omega

theorem isGreatest_multiple (modulus : Nat) :
    IsGreatest {k | modulus ∣ k ∧ k ≤ 2 ^ 64} (2 ^ 64 / modulus * modulus) := by
  refine ⟨⟨Nat.dvd_mul_left _ _, Nat.div_mul_le_self _ _⟩, ?_⟩
  rintro k ⟨⟨c, rfl⟩, hk⟩
  rw [Nat.mul_comm modulus c]
  rcases Nat.eq_zero_or_pos modulus with rfl | hpos
  · simp
  · refine Nat.mul_le_mul_right modulus ((Nat.le_div_iff_mul_le hpos).mpr ?_)
    rwa [Nat.mul_comm]

/-- Every residue is the one of equally many accepted values. -/
theorem card_residue {modulus r : Nat} (hr : r < modulus) :
    Nat.card {v : BitVec 64 // v.toNat < 2 ^ 64 / modulus * modulus ∧ v.toNat % modulus = r} = 2 ^ 64 / modulus := by
  have hpos : 0 < modulus := Nat.zero_lt_of_lt hr
  have hle : 2 ^ 64 / modulus * modulus ≤ 2 ^ 64 := Nat.div_mul_le_self _ _
  have hbelow : ∀ k : Fin (2 ^ 64 / modulus), k * modulus + r < 2 ^ 64 / modulus * modulus := by
    intro k
    calc k * modulus + r < k * modulus + modulus := Nat.add_lt_add_left hr _
      _ = (k + 1) * modulus := (Nat.succ_mul _ _).symm
      _ ≤ 2 ^ 64 / modulus * modulus := Nat.mul_le_mul_right _ k.isLt
  have hword : ∀ k : Fin (2 ^ 64 / modulus), (BitVec.ofNat 64 (k * modulus + r)).toNat = k * modulus + r := by
    intro k
    rw [BitVec.toNat_ofNat, Nat.mod_eq_of_lt ((hbelow k).trans_le hle)]
  have e : {v : BitVec 64 // v.toNat < 2 ^ 64 / modulus * modulus ∧ v.toNat % modulus = r} ≃ Fin (2 ^ 64 / modulus) :=
    { toFun := fun v => ⟨v.1.toNat / modulus, (Nat.div_lt_iff_lt_mul hpos).mpr v.2.1⟩
      invFun := fun k => ⟨BitVec.ofNat 64 (k * modulus + r), by rw [hword k]; exact hbelow k, by
        rw [hword k, Nat.mul_add_mod_self_right, Nat.mod_eq_of_lt hr]⟩
      left_inv := fun v => by
        refine Subtype.ext (BitVec.eq_of_toNat_eq ((hword _).trans ?_))
        exact (congrArg (v.1.toNat / modulus * modulus + ·) v.2.2.symm).trans (Nat.div_add_mod' _ _)
      right_inv := fun k => by
        refine Fin.ext ?_
        show (BitVec.ofNat 64 (k * modulus + r)).toNat / modulus = k
        rw [hword k, Nat.mul_comm, Nat.mul_add_div hpos, Nat.div_eq_of_lt hr, Nat.add_zero] }
  rw [Nat.card_congr e, Nat.card_fin]

/-! ## Swaps by a sequence of indices -/

/-- The swaps of `gen_permutation`, from the position `i` on. -/
def swaps : Nat → List Nat → List Nat → List Nat
  | _, [], perm => perm
  | i, j :: js, perm => swaps (i + 1) js (swapped perm i j)

/-- The list that the indices `j_1, ..., j_(n-1)` lead to. -/
def permutationOf (size : Nat) (js : List Nat) : List Nat := swaps 1 js (List.range size)

/-- The `i`-th index is at most `i`. -/
def IndexSequence (size : Nat) (js : List Nat) : Prop :=
  js.length = size - 1 ∧ ∀ k : Nat, ∀ j, js[k]? = some j → j ≤ k + 1

theorem length_swapped (l : List Nat) (i j : Nat) : (swapped l i j).length = l.length := by
  simp [swapped]

theorem swaps_append (i : Nat) (js : List Nat) (j : Nat) (perm : List Nat) :
    swaps i (js ++ [j]) perm = swapped (swaps i js perm) (i + js.length) j := by
  induction js generalizing i perm with
  | nil => rfl
  | cons k js ih =>
    show swaps (i + 1) (js ++ [j]) (swapped perm i k) = _
    rw [ih, List.length_cons, Nat.add_assoc, Nat.add_comm 1]
    rfl

theorem swapped_append {l : List Nat} (r : List Nat) {i j : Nat} (hi : i < l.length) (hj : j < l.length) :
    swapped (l ++ r) i j = swapped l i j ++ r := by
  unfold swapped
  rw [List.getD_append _ _ _ _ hi, List.getD_append _ _ _ _ hj, List.set_append_left _ _ hi,
    List.set_append_left _ _ (by rwa [List.length_set])]

/-- The swaps leave what is behind their positions. -/
theorem swaps_append_list {i : Nat} {js : List Nat} {l : List Nat} (r : List Nat) (hlen : i + js.length ≤ l.length)
    (hjs : ∀ k : Nat, ∀ j, js[k]? = some j → j ≤ i + k) : swaps i js (l ++ r) = swaps i js l ++ r := by
  induction js generalizing i l with
  | nil => rfl
  | cons j js ih =>
    rw [List.length_cons] at hlen
    have hj : j ≤ i := hjs 0 j rfl
    show swaps (i + 1) js (swapped (l ++ r) i j) = swaps (i + 1) js (swapped l i j) ++ r
    rw [swapped_append r (by omega) (by omega), ih (by rw [length_swapped]; omega)]
    intro k j' hk
    have hk' := hjs (k + 1) j' hk
    omega

theorem swapped_swapped {l : List Nat} {i j : Nat} (hi : i < l.length) (hj : j < l.length) :
    swapped (swapped l i j) i j = l := by
  refine List.ext_getElem (by rw [length_swapped, length_swapped]) fun k hk hk' => ?_
  unfold swapped
  simp only [List.getD_eq_getElem?_getD, List.getElem?_set, List.getElem_set, List.length_set]
  by_cases hkj : j = k
  · subst hkj
    by_cases hij : i = j
    · subst hij
      simp [hi]
    · simp [hi, hj, Ne.symm hij]
  · by_cases hki : i = k
    · subst hki
      simp [hi, hj, hkj]
    · simp [hkj, hki]

theorem getD_swapped {l : List Nat} {i j : Nat} (hj : j < l.length) : (swapped l i j).getD j 0 = l.getD i 0 := by
  unfold swapped
  rw [List.getD_eq_getElem?_getD, List.getElem?_set_self (by rwa [List.length_set])]
  rfl

theorem getD_swapped_left {l : List Nat} {i j : Nat} (hi : i < l.length) (hj : j < l.length) :
    (swapped l i j).getD i 0 = l.getD j 0 := by
  have h := getD_swapped (l := swapped l i j) (i := i) (j := j) (by rwa [length_swapped])
  rw [swapped_swapped hi hj] at h
  exact h.symm

theorem swaps_perm {size i : Nat} {js perm : List Nat} (hsize : perm.length = size) (hlen : i + js.length ≤ size)
    (hjs : ∀ k : Nat, ∀ j, js[k]? = some j → j ≤ i + k) : (swaps i js perm).Perm perm := by
  induction js generalizing i perm with
  | nil => exact List.Perm.refl _
  | cons j js ih =>
    rw [List.length_cons] at hlen
    have hj : j ≤ i := hjs 0 j rfl
    have hperm := swapped_perm (l := perm) (i := i) (j := j) (by omega) (by omega)
    refine (ih (i := i + 1) ((length_swapped _ _ _).trans hsize) (by omega) fun k j' hk => ?_).trans hperm
    have hk' := hjs (k + 1) j' hk
    omega

/-! ## Every permutation comes from one sequence -/

theorem permutationOf_perm {size : Nat} {js : List Nat} (h : IndexSequence size js) :
    (permutationOf size js).Perm (List.range size) := by
  obtain ⟨hlen, hjs⟩ := h
  rcases Nat.eq_zero_or_pos size with rfl | hpos
  · obtain rfl := List.length_eq_zero_iff.mp hlen
    exact List.Perm.refl _
  · refine swaps_perm List.length_range (by omega) fun k j hk => ?_
    have := hjs k j hk
    omega

/-- The last index of a sequence. -/
theorem indexSequence_succ {size : Nat} (hpos : 0 < size) {js : List Nat} :
    IndexSequence (size + 1) js ↔ ∃ js' j, js = js' ++ [j] ∧ IndexSequence size js' ∧ j ≤ size := by
  constructor
  · rintro ⟨hlen, hjs⟩
    have hne : js ≠ [] := by
      rintro rfl
      rw [List.length_nil] at hlen
      omega
    refine ⟨js.dropLast, js.getLast hne, (List.dropLast_append_getLast hne).symm, ⟨?_, fun k j hk => ?_⟩, ?_⟩
    · rw [List.length_dropLast]
      omega
    · rw [List.getElem?_dropLast] at hk
      split at hk
      next => exact hjs k j hk
      next => cases hk
    · have hget : js[js.length - 1]? = some (js.getLast hne) := by
        rw [← List.getLast?_eq_getElem?, List.getLast?_eq_getLast_of_ne_nil hne]
      have hlast := hjs (js.length - 1) (js.getLast hne) hget
      omega
  · rintro ⟨js', j, rfl, ⟨hlen, hjs⟩, hj⟩
    refine ⟨?_, fun k j' hk => ?_⟩
    · rw [List.length_append, List.length_singleton]
      omega
    · rw [List.getElem?_append] at hk
      split at hk
      next => exact hjs k j' hk
      next hk' =>
        obtain ⟨hzero, rfl⟩ := List.getElem?_eq_some_iff.mp hk
        rw [List.length_singleton] at hzero
        rw [List.getElem_singleton]
        omega

/-- The last swap. -/
theorem permutationOf_append {size : Nat} (hpos : 0 < size) {js : List Nat} (h : IndexSequence size js) (j : Nat) :
    permutationOf (size + 1) (js ++ [j]) = swapped (permutationOf size js ++ [size]) size j := by
  obtain ⟨hlen, hjs⟩ := h
  unfold permutationOf
  rw [swaps_append, hlen, show 1 + (size - 1) = size by omega, List.range_succ,
    swaps_append_list _ (by rw [List.length_range]; omega) fun k j hk => by have := hjs k j hk; omega]

theorem length_permutationOf {size : Nat} {js : List Nat} (h : IndexSequence size js) :
    (permutationOf size js ++ [size]).length = size + 1 := by
  rw [List.length_append, (permutationOf_perm h).length_eq, List.length_range, List.length_singleton]

/-- The last index is the position of the largest element. -/
theorem getD_last_swap {size : Nat} {js : List Nat} (h : IndexSequence size js) {j : Nat} (hj : j ≤ size) :
    (swapped (permutationOf size js ++ [size]) size j).getD j 0 = size := by
  have hlen := length_permutationOf h
  rw [List.length_append, List.length_singleton] at hlen
  rw [getD_swapped (by rw [List.length_append, List.length_singleton]; omega),
    List.getD_append_right _ _ _ _ (by omega), show size - (permutationOf size js).length = 0 by omega]
  rfl

theorem eq_of_getD_eq {size : Nat} {perm : List Nat} (h : perm.Perm (List.range size)) {i j : Nat} (hi : i < size)
    (hj : j < size) (hij : perm.getD i 0 = perm.getD j 0) : i = j := by
  have hlen : perm.length = size := by
    rw [h.length_eq, List.length_range]
  rw [List.getD_eq_getElem _ _ (hlen ▸ hi), List.getD_eq_getElem _ _ (hlen ▸ hj)] at hij
  exact (h.symm.nodup List.nodup_range).getElem_inj_iff.mp hij

theorem eq_append_of_getD {l : List Nat} {n a : Nat} (hlen : l.length = n + 1) (h : l.getD n 0 = a) :
    ∃ l', l = l' ++ [a] := by
  have hn : n < l.length := by omega
  rw [List.getD_eq_getElem _ _ hn] at h
  refine ⟨l.take n, ?_⟩
  rw [← h, ← List.take_succ_eq_append_getElem hn, ← hlen, List.take_length]

theorem permutationOf_injOn (size : Nat) : Set.InjOn (permutationOf size) {js | IndexSequence size js} := by
  induction size with
  | zero =>
    intro js hjs js' hjs' _
    rw [List.length_eq_zero_iff.mp hjs.1, List.length_eq_zero_iff.mp hjs'.1]
  | succ size ih =>
    rcases Nat.eq_zero_or_pos size with rfl | hpos
    · intro js hjs js' hjs' _
      rw [List.length_eq_zero_iff.mp hjs.1, List.length_eq_zero_iff.mp hjs'.1]
    · intro js hjs js' hjs' heq
      have hperm' := permutationOf_perm hjs'
      obtain ⟨ks, j, rfl, hks, hj⟩ := (indexSequence_succ hpos).mp hjs
      obtain ⟨ks', j', rfl, hks', hj'⟩ := (indexSequence_succ hpos).mp hjs'
      rw [permutationOf_append hpos hks, permutationOf_append hpos hks'] at heq
      rw [permutationOf_append hpos hks'] at hperm'
      have hlast := getD_last_swap hks hj
      rw [heq] at hlast
      obtain rfl : j = j' :=
        eq_of_getD_eq hperm' (by omega) (by omega) (hlast.trans (getD_last_swap hks' hj').symm)
      -- the last swap is undone
      have hundo : swapped _ size j = swapped _ size j := congrArg (fun l => swapped l size j) heq
      rw [swapped_swapped (by rw [length_permutationOf hks]; omega) (by rw [length_permutationOf hks]; omega),
        swapped_swapped (by rw [length_permutationOf hks']; omega) (by rw [length_permutationOf hks']; omega)] at hundo
      rw [ih hks hks' (List.append_cancel_right hundo)]

theorem permutationOf_surjOn (size : Nat) :
    Set.SurjOn (permutationOf size) {js | IndexSequence size js} {perm | perm.Perm (List.range size)} := by
  induction size with
  | zero =>
    intro perm hperm
    refine ⟨[], ⟨rfl, by simp⟩, ?_⟩
    rw [List.perm_nil.mp hperm]
    rfl
  | succ size ih =>
    intro perm hperm
    have hlen : perm.length = size + 1 := by
      rw [hperm.length_eq, List.length_range]
    rcases Nat.eq_zero_or_pos size with rfl | hpos
    · refine ⟨[], ⟨rfl, by simp⟩, ?_⟩
      rw [List.perm_singleton.mp hperm]
      rfl
    · obtain ⟨j, hj, hjsize⟩ := List.getElem_of_mem (hperm.mem_iff.mpr (List.mem_range.mpr (Nat.lt_succ_self size)))
      have hswap := (swapped_perm (l := perm) (i := size) (j := j) (by omega) hj).trans hperm
      have hlast : (swapped perm size j).getD size 0 = size := by
        rw [getD_swapped_left (by omega) hj, List.getD_eq_getElem _ _ hj, hjsize]
      obtain ⟨l, hl⟩ := eq_append_of_getD ((length_swapped _ _ _).trans hlen) hlast
      rw [hl, List.range_succ, List.perm_append_right_iff] at hswap
      obtain ⟨js, hjs, rfl⟩ := ih hswap
      refine ⟨js ++ [j], (indexSequence_succ hpos).mpr ⟨js, j, rfl, hjs, by omega⟩, ?_⟩
      rw [permutationOf_append hpos hjs, ← hl, swapped_swapped (by omega) hj]

/-- The sequences of indices are in bijection with the permutations. -/
theorem permutationOf_bijOn (size : Nat) :
    Set.BijOn (permutationOf size) {js | IndexSequence size js} {perm | perm.Perm (List.range size)} :=
  ⟨fun _ hjs => permutationOf_perm hjs, permutationOf_injOn size, permutationOf_surjOn size⟩

/-! ## The draws -/

section Draws

variable {R : Type} [Rng R]

/-- The indices that the rounds draw from one stream. -/
def drawIndices (fuel : Nat) : Nat → Nat → R → Option (List Nat × R)
  | 0, _, rng => some ([], rng)
  | n + 1, i, rng =>
    match sampleLoop (i + 1) fuel rng with
    | none => none
    | some (j, rng) => (drawIndices fuel n (i + 1) rng).map fun (js, rng) => (j :: js, rng)

/-- The rounds are the swaps by the indices. -/
theorem drawLoop_eq (fuel n i : Nat) (perm : List Nat) (rng : R) :
    drawLoop fuel n i perm rng = (drawIndices fuel n i rng).map fun (js, rng) => (swaps i js perm, rng) := by
  induction n generalizing i perm rng with
  | zero => rfl
  | succ n ih =>
    unfold drawLoop drawIndices
    cases sampleLoop (i + 1) fuel rng with
    | none => rfl
    | some v =>
      dsimp only
      rw [ih, Option.map_map]
      rfl

theorem drawIndices_valid {fuel n i : Nat} {rng rng' : R} {js : List Nat}
    (h : drawIndices fuel n i rng = some (js, rng')) :
    js.length = n ∧ ∀ k : Nat, ∀ j, js[k]? = some j → j ≤ i + k := by
  induction n generalizing i rng js with
  | zero =>
    cases h
    exact ⟨rfl, by simp⟩
  | succ n ih =>
    unfold drawIndices at h
    split at h
    next => cases h
    next j rng₁ hj =>
      obtain ⟨⟨js, rng₂⟩, hjs, heq⟩ := Option.map_eq_some_iff.mp h
      cases heq
      obtain ⟨hlen, hle⟩ := ih hjs
      refine ⟨by rw [List.length_cons, hlen], fun k j' hk => ?_⟩
      cases k with
      | zero =>
        cases hk
        exact Nat.le_of_lt_succ (sampleLoop_lt (Nat.succ_pos i) hj)
      | succ k =>
        have := hle k j' hk
        omega

/-- What is drawn from a stream is the permutation of a sequence of indices. -/
theorem drawPermutation_eq_some {fuel size : Nat} {rng rng' : R} {perm : List Nat}
    (h : drawPermutation fuel size rng = some (perm, rng')) :
    ∃ js, drawIndices fuel (size - 1) 1 rng = some (js, rng') ∧ IndexSequence size js ∧
      perm = permutationOf size js := by
  unfold drawPermutation at h
  rw [drawLoop_eq] at h
  obtain ⟨⟨js, rng₁⟩, hjs, heq⟩ := Option.map_eq_some_iff.mp h
  cases heq
  obtain ⟨hlen, hle⟩ := drawIndices_valid hjs
  refine ⟨js, hjs, ⟨hlen, fun k j hk => ?_⟩, rfl⟩
  have := hle k j hk
  omega

/-- One draw: a value below the largest multiple of the modulus is reduced, another one is rejected. -/
theorem genU32Mod_succ {modulus : Nat} (hpos : 1 ≤ modulus) (hlt : modulus < 2 ^ 32) (fuel : Nat) (rng : R) :
    genU32Mod (fuel + 1) modulus rng =
      if (Rng.gen 64 rng).1.toNat < 2 ^ 64 / modulus * modulus then
        some (.ok ((Rng.gen 64 rng).1.toNat % modulus), (Rng.gen 64 rng).2)
      else genU32Mod fuel modulus (Rng.gen 64 rng).2 := by
  have hne : modulus ≠ 0 := by omega
  unfold genU32Mod
  rw [if_neg hne, if_neg hne, sampleLoop]
  dsimp only
  simp only [le_rejectionBound_iff hpos hlt]
  split <;> rfl

variable (R) in
/-- **Shuffle randomness.** The accepted values are those below the largest multiple of the modulus, and every residue
is the one of equally many of them. What `gen_permutation` draws are permutations, each by its own sequence of indices,
and the sequences are in bijection with the permutations. -/
theorem shuffle_randomness :
    (∀ modulus, 1 ≤ modulus → modulus < 2 ^ 32 →
      (∀ fuel (rng : R), genU32Mod (fuel + 1) modulus rng =
        if (Rng.gen 64 rng).1.toNat < 2 ^ 64 / modulus * modulus then
          some (.ok ((Rng.gen 64 rng).1.toNat % modulus), (Rng.gen 64 rng).2)
        else genU32Mod fuel modulus (Rng.gen 64 rng).2) ∧
      IsGreatest {k | modulus ∣ k ∧ k ≤ 2 ^ 64} (2 ^ 64 / modulus * modulus) ∧
      ∀ r < modulus, Nat.card {v : BitVec 64 // v.toNat < 2 ^ 64 / modulus * modulus ∧ v.toNat % modulus = r} =
        2 ^ 64 / modulus) ∧
    (∀ size fuel (prf : Prf R), genPermutation fuel size prf = .spin ∨
      ∃ jsA jsB prf',
        genPermutation fuel size prf = .pure (.ok (permutationOf size jsA, permutationOf size jsB), prf') ∧
        drawIndices fuel (size - 1) 1 prf.myPrf = some (jsA, prf'.myPrf) ∧
        drawIndices fuel (size - 1) 1 prf.prevPrf = some (jsB, prf'.prevPrf) ∧
        IndexSequence size jsA ∧ IndexSequence size jsB ∧
        (permutationOf size jsA).Perm (List.range size) ∧ (permutationOf size jsB).Perm (List.range size)) ∧
    (SamplingEnds R → ∀ size < 2 ^ 32, ∀ prf : Prf R, ∃ F, ∀ fuel, F ≤ fuel → genPermutation fuel size prf ≠ .spin) ∧
    ∀ size, Set.BijOn (permutationOf size) {js | IndexSequence size js} {perm | perm.Perm (List.range size)} := by
  refine ⟨fun modulus hpos hlt => ⟨genU32Mod_succ hpos hlt, isGreatest_multiple modulus, fun r hr => card_residue hr⟩,
    ?_, ?_, permutationOf_bijOn⟩
  · intro size fuel prf
    rw [genPermutation_eq]
    cases hA : drawPermutation fuel size prf.myPrf with
    | none => exact .inl rfl
    | some drawnA =>
      cases hB : drawPermutation fuel size prf.prevPrf with
      | none => exact .inl rfl
      | some drawnB =>
        obtain ⟨jsA, hdrawA, hseqA, hpermA⟩ := drawPermutation_eq_some hA
        obtain ⟨jsB, hdrawB, hseqB, hpermB⟩ := drawPermutation_eq_some hB
        refine .inr ⟨jsA, jsB, ⟨drawnA.2, drawnB.2⟩, ?_, hdrawA, hdrawB, hseqA, hseqB, permutationOf_perm hseqA,
          permutationOf_perm hseqB⟩
        rw [← hpermA, ← hpermB]
  · intro hends size hlt prf
    obtain ⟨F, hF⟩ := exists_fuel_drawPermutation hends hlt prf.myPrf
    obtain ⟨G, hG⟩ := exists_fuel_drawPermutation hends hlt prf.prevPrf
    refine ⟨max F G, fun fuel hfuel hspin => ?_⟩
    obtain ⟨drawnA, hA⟩ := Option.isSome_iff_exists.mp (hF fuel (le_of_max_le_left hfuel))
    obtain ⟨drawnB, hB⟩ := Option.isSome_iff_exists.mp (hG fuel (le_of_max_le_right hfuel))
    rw [genPermutation_eq, hA, hB] at hspin
    cases hspin

/-- The residue six of seven, and a permutation of five elements from streams that count upwards. -/
theorem shuffle_randomness_seven :
    Nat.card {v : BitVec 64 // v.toNat < 2 ^ 64 / 7 * 7 ∧ v.toNat % 7 = 6} = 2 ^ 64 / 7 ∧
    ∀ prf : Prf StepRng, ∃ F, ∀ fuel, F ≤ fuel → genPermutation fuel 5 prf ≠ .spin :=
  ⟨((shuffle_randomness StepRng).1 7 (by decide) (by decide)).2.2 6 (by decide),
    (shuffle_randomness StepRng).2.2.1 samplingEnds_stepRng 5 (by decide)⟩

end Draws

end AmpcCommon.Protocol
