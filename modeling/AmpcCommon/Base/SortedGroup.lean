import Mathlib.Order.Defs.LinearOrder
import Mathlib.Data.List.Induction
import Mathlib.Tactic.Common
import Mathlib.Order.Lattice

/-!
# Grouping values by an ordered key

`SortedGroup.entryPush` is the `entry(k).or_default().push(v)` of a map that iterates in key order,
kept as a list of `(key, values)` entries; `SortedGroup.groupBy` pushes a whole list. The entries of
`groupBy` have strictly increasing keys, exactly the keys that occur, and the values of each key in
their original order.
-/

namespace SortedGroup

variable {K V : Type} [LinearOrder K]

/-- Append `v` to the values of key `k`, creating the entry when it is missing. -/
def entryPush (k : K) (v : V) : List (K × List V) → List (K × List V)
  | [] => [(k, [v])]
  | (k', vs) :: rest =>
    if k < k' then (k, [v]) :: (k', vs) :: rest
    else if k = k' then (k', vs ++ [v]) :: rest
    else (k', vs) :: entryPush k v rest

/-- The entries of the values `vs` grouped by `key`. -/
def groupBy (key : V → K) (vs : List V) : List (K × List V) :=
  vs.foldl (fun acc v => entryPush (key v) v acc) []

theorem mem_keys_entryPush (k : K) (v : V) (es : List (K × List V)) (x : K) :
    x ∈ (entryPush k v es).map Prod.fst ↔ x = k ∨ x ∈ es.map Prod.fst := by
  induction es with
  | nil => simp [entryPush]
  | cons e rest ih =>
    obtain ⟨k', vs⟩ := e
    simp only [entryPush]
    split_ifs with h1 h2
    · simp
    · subst h2; simp
    · simp only [List.map_cons, List.mem_cons, ih]
      tauto

theorem sorted_entryPush (k : K) (v : V) {es : List (K × List V)}
    (h : (es.map Prod.fst).Pairwise (· < ·)) :
    ((entryPush k v es).map Prod.fst).Pairwise (· < ·) := by
  induction es with
  | nil => simp [entryPush]
  | cons e rest ih =>
    obtain ⟨k', vs⟩ := e
    rw [List.map_cons, List.pairwise_cons] at h
    simp only [entryPush]
    split_ifs with h1 h2
    · simp only [List.map_cons, List.pairwise_cons]
      refine ⟨?_, h.1, h.2⟩
      intro x hx
      rcases List.mem_cons.mp hx with rfl | hx
      · exact h1
      · exact lt_trans h1 (h.1 x hx)
    · exact List.pairwise_cons.mpr h
    · rw [List.map_cons, List.pairwise_cons]
      refine ⟨fun x hx => ?_, ih h.2⟩
      rcases (mem_keys_entryPush k v rest x).mp hx with rfl | hx
      · exact lt_of_le_of_ne (not_lt.mp h1) (Ne.symm h2)
      · exact h.1 x hx

/-- The values of the entries after a push: the entry of `k` grows by `v`, the others stay. -/
theorem mem_entryPush (k : K) (v : V) {es : List (K × List V)}
    (h : (es.map Prod.fst).Pairwise (· < ·)) (x : K) (xs : List V) :
    (x, xs) ∈ entryPush k v es ↔
      (x ≠ k ∧ (x, xs) ∈ es) ∨
      (x = k ∧ ((k ∉ es.map Prod.fst ∧ xs = [v]) ∨ ∃ ys, (k, ys) ∈ es ∧ xs = ys ++ [v])) := by
  induction es with
  | nil =>
    simp only [entryPush, List.mem_singleton, Prod.mk.injEq, List.not_mem_nil, and_false, false_or,
      List.map_nil, not_false_eq_true, true_and, false_and, exists_false, or_false]
  | cons e rest ih =>
    obtain ⟨k', vs⟩ := e
    rw [List.map_cons, List.pairwise_cons] at h
    simp only [entryPush]
    split_ifs with h1 h2
    · have hk : k ∉ ((k', vs) :: rest).map Prod.fst := by
        intro hmem
        rcases List.mem_cons.mp hmem with heq | hmem
        · exact absurd heq (ne_of_lt h1)
        · exact absurd (lt_trans h1 (h.1 k hmem)) (lt_irrefl k)
      have hk' : ∀ ys, (k, ys) ∉ (k', vs) :: rest := fun ys hys =>
        hk (List.mem_map.mpr ⟨_, hys, rfl⟩)
      constructor
      · intro hm
        rcases List.mem_cons.mp hm with heq | hm
        · obtain ⟨rfl, rfl⟩ := Prod.mk.inj heq
          exact Or.inr ⟨rfl, Or.inl ⟨hk, rfl⟩⟩
        · exact Or.inl ⟨fun hx => hk' xs (hx ▸ hm), hm⟩
      · rintro (⟨-, hm⟩ | ⟨rfl, ⟨-, rfl⟩ | ⟨ys, hys, -⟩⟩)
        · exact List.mem_cons_of_mem _ hm
        · exact List.mem_cons_self
        · exact absurd hys (hk' ys)
    · subst h2
      have hrest : ∀ ys, (k, ys) ∉ rest := fun ys hys =>
        absurd (h.1 k (List.mem_map.mpr ⟨_, hys, rfl⟩)) (lt_irrefl k)
      constructor
      · intro hm
        rcases List.mem_cons.mp hm with heq | hm
        · obtain ⟨rfl, rfl⟩ := Prod.mk.inj heq
          exact Or.inr ⟨rfl, Or.inr ⟨vs, List.mem_cons_self, rfl⟩⟩
        · exact Or.inl ⟨fun hx => hrest xs (hx ▸ hm), List.mem_cons_of_mem _ hm⟩
      · rintro (⟨hne, hm⟩ | ⟨rfl, ⟨hk, -⟩ | ⟨ys, hys, rfl⟩⟩)
        · rcases List.mem_cons.mp hm with heq | hm
          · exact absurd (Prod.mk.inj heq).1 hne
          · exact List.mem_cons_of_mem _ hm
        · exact absurd (by simp) hk
        · rcases List.mem_cons.mp hys with heq | hys
          · rw [(Prod.mk.inj heq).2]; exact List.mem_cons_self
          · exact absurd hys (hrest ys)
    · have ih := ih h.2
      have hmapk : k ∈ ((k', vs) :: rest).map Prod.fst ↔ k ∈ rest.map Prod.fst := by
        simp [h2]
      have hmemk : ∀ ys, (k, ys) ∈ (k', vs) :: rest ↔ (k, ys) ∈ rest := by
        intro ys; simp [h2]
      rw [List.mem_cons, ih, hmapk]
      simp only [hmemk]
      constructor
      · rintro (heq | ⟨hne, hm⟩ | hr)
        · obtain ⟨rfl, rfl⟩ := Prod.mk.inj heq
          exact Or.inl ⟨fun hx => h2 hx.symm, List.mem_cons_self⟩
        · exact Or.inl ⟨hne, List.mem_cons_of_mem _ hm⟩
        · exact Or.inr hr
      · rintro (⟨hne, hm⟩ | hr)
        · rcases List.mem_cons.mp hm with heq | hm
          · exact Or.inl heq
          · exact Or.inr (Or.inl ⟨hne, hm⟩)
        · exact Or.inr (Or.inr hr)

/-- What a fold of pushes has built from the values `vs`. -/
structure Grouped (key : V → K) (vs : List V) (es : List (K × List V)) : Prop where
  sorted : (es.map Prod.fst).Pairwise (· < ·)
  entry : ∀ k xs, (k, xs) ∈ es ↔ k ∈ vs.map key ∧ xs = vs.filter (fun v => key v = k)

theorem Grouped.push {key : V → K} {vs : List V} {es : List (K × List V)}
    (h : Grouped key vs es) (v : V) : Grouped key (vs ++ [v]) (entryPush (key v) v es) := by
  have hkey : ∀ k, k ∈ es.map Prod.fst ↔ k ∈ vs.map key := by
    intro k
    constructor
    · intro hk
      obtain ⟨⟨k', xs⟩, hm, rfl⟩ := List.mem_map.mp hk
      exact ((h.entry k' xs).mp hm).1
    · intro hk
      exact List.mem_map.mpr ⟨_, (h.entry k _).mpr ⟨hk, rfl⟩, rfl⟩
  refine ⟨sorted_entryPush _ _ h.sorted, fun k xs => ?_⟩
  rw [mem_entryPush _ _ h.sorted, hkey]
  simp only [h.entry, List.map_append, List.map_cons, List.map_nil, List.mem_append,
    List.mem_singleton, List.filter_append]
  by_cases hk : k = key v
  · subst hk
    have hnil : key v ∉ vs.map key → vs.filter (fun w => key w = key v) = [] := by
      intro hv
      refine List.filter_eq_nil_iff.mpr fun w hw hwv => hv ?_
      exact List.mem_map.mpr ⟨w, hw, by simpa using hwv⟩
    by_cases hv : key v ∈ vs.map key
    · simp [hv]
    · simp [hv, hnil hv]
  · simp [hk, Ne.symm hk]

theorem groupBy_grouped (key : V → K) (vs : List V) : Grouped key vs (groupBy key vs) := by
  induction vs using List.reverseRecOn with
  | nil => exact ⟨List.Pairwise.nil, fun k xs => by simp [groupBy]⟩
  | append_singleton vs v ih =>
    rw [groupBy, List.foldl_append]
    exact ih.push v

/-- Two lists in strictly increasing order of their keys that match element by element are related in this
order. -/
theorem forall₂_of_match {α β : Type} {key : α → K} {key' : β → K} {R : α → β → Prop}
    (hkey : ∀ a b, R a b → key a = key' b) {l : List α} {l' : List β} (hl : (l.map key).Pairwise (· < ·))
    (hl' : (l'.map key').Pairwise (· < ·)) (h : ∀ a ∈ l, ∃ b ∈ l', R a b) (h' : ∀ b ∈ l', ∃ a ∈ l, R a b) :
    List.Forall₂ R l l' := by
  induction l generalizing l' with
  | nil =>
    cases l' with
    | nil => exact .nil
    | cons b l' =>
      obtain ⟨a, ha, -⟩ := h' b List.mem_cons_self
      cases ha
  | cons a l ih =>
    cases l' with
    | nil =>
      obtain ⟨b, hb, -⟩ := h a List.mem_cons_self
      cases hb
    | cons b l' =>
      rw [List.map_cons, List.pairwise_cons] at hl hl'
      have hafter : ∀ c ∈ l, key a < key c := fun c hc => hl.1 _ (List.mem_map_of_mem hc)
      have hafter' : ∀ c ∈ l', key' b < key' c := fun c hc => hl'.1 _ (List.mem_map_of_mem hc)
      -- the heads match, since no other element has a key as small as theirs
      have hle : key' b ≤ key a := by
        obtain ⟨c, hc, hac⟩ := h a List.mem_cons_self
        rw [hkey a c hac]
        rcases List.mem_cons.mp hc with rfl | hc
        · exact le_rfl
        · exact le_of_lt (hafter' c hc)
      have hge : key a ≤ key' b := by
        obtain ⟨c, hc, hcb⟩ := h' b List.mem_cons_self
        rw [← hkey c b hcb]
        rcases List.mem_cons.mp hc with rfl | hc
        · exact le_rfl
        · exact le_of_lt (hafter c hc)
      have hab : R a b := by
        obtain ⟨c, hc, hac⟩ := h a List.mem_cons_self
        rcases List.mem_cons.mp hc with rfl | hc
        · exact hac
        · exact absurd (hkey a c hac) (ne_of_lt (lt_of_le_of_lt hge (hafter' c hc)))
      refine .cons hab (ih hl.2 hl'.2 ?_ ?_)
      · intro c hc
        obtain ⟨d, hd, hcd⟩ := h c (List.mem_cons_of_mem _ hc)
        rcases List.mem_cons.mp hd with rfl | hd
        · exact absurd (hkey c d hcd) (ne_of_gt (lt_of_le_of_lt hle (hafter c hc)))
        · exact ⟨d, hd, hcd⟩
      · intro d hd
        obtain ⟨c, hc, hcd⟩ := h' d (List.mem_cons_of_mem _ hd)
        rcases List.mem_cons.mp hc with rfl | hc
        · exact absurd (hkey c d hcd) (ne_of_lt (lt_of_le_of_lt hge (hafter' d hd)))
        · exact ⟨c, hc, hcd⟩

end SortedGroup
