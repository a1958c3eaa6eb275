import Mathlib.Data.List.GetD
import Mathlib.Tactic.Common

/-!
# Reduction of groups in the same rounds

Groups of different sizes are reduced in the same rounds, in which a selection keeps one of two members. A group takes
in its members from the last one to the second; when it has taken in all of them, the first one is selected against in
every further round (`Slot.next`). A selection of the lesser member leaves a least member of the group
(`reduced_mem`, `reduced_le`), whatever the number of the rounds is (`Slot.Inv.best_eq_reduced`).
-/

namespace GroupReduction

variable {α : Type}

/-- The selection keeps one of two members, a lesser one. Of two equal ones it keeps the second. -/
structure Selects (fits : α → Prop) (le : α → α → Prop) (select : α → α → α) : Prop where
  mem : ∀ d e, select d e = d ∨ select d e = e
  le_left : ∀ d e, fits d → fits e → le (select d e) d
  le_right : ∀ d e, fits d → fits e → le (select d e) e
  refl : ∀ d, fits d → le d d
  trans : ∀ d e f, fits d → fits e → fits f → le d e → le e f → le d f
  stays : ∀ d e, fits d → fits e → le e d → select d e = e

variable {fits : α → Prop} {le : α → α → Prop} {select : α → α → α}

/-! ## One group -/

/-- The members are taken in from the last one on, into the first one. -/
def reduced [Inhabited α] (select : α → α → α) : List α → α
  | [] => default
  | d :: ds => ds.foldr select d

theorem foldr_mem (hs : Selects fits le select) (d : α) (ds : List α) : ds.foldr select d ∈ d :: ds := by
  induction ds with
  | nil => exact List.mem_singleton_self d
  | cons e ds ih =>
    rw [List.foldr_cons]
    rcases hs.mem e (ds.foldr select d) with heq | heq
    · rw [heq]
      exact List.mem_cons_of_mem _ List.mem_cons_self
    · rw [heq]
      rcases List.mem_cons.mp ih with hfirst | hrest
      · rw [hfirst]
        exact List.mem_cons_self
      · exact List.mem_cons_of_mem _ (List.mem_cons_of_mem _ hrest)

theorem foldr_le (hs : Selects fits le select) {d : α} {ds : List α} (hfits : ∀ e ∈ d :: ds, fits e) :
    ∀ e ∈ d :: ds, le (ds.foldr select d) e := by
  induction ds with
  | nil =>
    intro e he
    obtain rfl := List.mem_singleton.mp he
    exact hs.refl e (hfits e he)
  | cons e' ds ih =>
    have hfirst : fits d := hfits d List.mem_cons_self
    have hnew : fits e' := hfits e' (List.mem_cons_of_mem _ List.mem_cons_self)
    have htail : ∀ e ∈ d :: ds, fits e := by
      intro e he
      rcases List.mem_cons.mp he with rfl | he
      · exact hfirst
      · exact hfits e (List.mem_cons_of_mem _ (List.mem_cons_of_mem _ he))
    have hbest : fits (ds.foldr select d) := htail _ (foldr_mem hs d ds)
    have hselect : fits (select e' (ds.foldr select d)) := by
      rcases hs.mem e' (ds.foldr select d) with heq | heq
      · rwa [heq]
      · rwa [heq]
    have hold : ∀ e ∈ d :: ds, le (select e' (ds.foldr select d)) e := fun e he =>
      hs.trans _ _ _ hselect hbest (htail e he) (hs.le_right _ _ hnew hbest) (ih htail e he)
    intro e he
    rw [List.foldr_cons]
    rcases List.mem_cons.mp he with rfl | he
    · exact hold e List.mem_cons_self
    · rcases List.mem_cons.mp he with rfl | he
      · exact hs.le_left _ _ hnew hbest
      · exact hold e (List.mem_cons_of_mem _ he)

variable [Inhabited α]

theorem reduced_mem (hs : Selects fits le select) {group : List α} (hne : group ≠ []) :
    reduced select group ∈ group := by
  cases group with
  | nil => exact absurd rfl hne
  | cons d ds => exact foldr_mem hs d ds

theorem reduced_le (hs : Selects fits le select) {group : List α} (hfits : ∀ d ∈ group, fits d) :
    ∀ e ∈ group, le (reduced select group) e := by
  cases group with
  | nil => simp
  | cons d ds => exact foldr_le hs hfits

/-- A group that is reduced stays as it is when its first member is taken in once more. -/
theorem select_head_reduced (hs : Selects fits le select) {group : List α} (hne : group ≠ [])
    (hfits : ∀ d ∈ group, fits d) : select (group.headD default) (reduced select group) = reduced select group := by
  cases group with
  | nil => exact absurd rfl hne
  | cons d ds =>
    have hmem : d ∈ d :: ds := List.mem_cons_self
    exact hs.stays _ _ (hfits d hmem) (hfits _ (reduced_mem hs hne)) (reduced_le hs hfits d hmem)

/-! ## Rounds -/

/-- A group in the rounds: its members, how many of them are still to be taken in, and what is selected so far. -/
structure Slot (α : Type) where
  group : List α
  size : Nat
  best : α

namespace Slot

/-- A round for a group. -/
def next (select : α → α → α) (t : Slot α) : Slot α :=
  { t with size := t.size - 1, best := select (t.group.getD t.size t.best) t.best }

/-- A group before the rounds. -/
def first (group : List α) : Slot α := ⟨group, group.length - 1, group.headD default⟩

/-- The members behind the size are taken in. -/
structure Inv (fits : α → Prop) (select : α → α → α) (t : Slot α) : Prop where
  fits : ∀ d ∈ t.group, fits d
  size_lt : t.size < t.group.length
  best_eq : t.best = (t.group.drop (t.size + 1)).foldr select (t.group.headD default)

theorem Inv.first {group : List α} (hne : group ≠ []) (hfits : ∀ d ∈ group, fits d) :
    (first group).Inv fits select := by
  cases group with
  | nil => exact absurd rfl hne
  | cons d ds =>
    refine ⟨hfits, Nat.sub_lt (Nat.succ_pos _) Nat.one_pos, ?_⟩
    show d = (ds.drop ds.length).foldr select d
    rw [List.drop_length, List.foldr_nil]

/-- When all members are taken in, the group is reduced. -/
theorem Inv.best_eq_reduced {t : Slot α} (h : t.Inv fits select) (hsize : t.size = 0) :
    t.best = reduced select t.group := by
  obtain ⟨-, hlt, hbest⟩ := h
  rw [hbest, hsize]
  cases hgroup : t.group with
  | nil =>
    rw [hgroup] at hlt
    exact absurd hlt (Nat.not_lt_zero _)
  | cons d ds => rfl

theorem Inv.best_mem (hs : Selects fits le select) {t : Slot α} (h : t.Inv fits select) : t.best ∈ t.group := by
  obtain ⟨-, hlt, hbest⟩ := h
  cases hgroup : t.group with
  | nil =>
    rw [hgroup] at hlt
    exact absurd hlt (Nat.not_lt_zero _)
  | cons d ds =>
    rw [hbest, hgroup]
    show (ds.drop t.size).foldr select d ∈ d :: ds
    rcases List.mem_cons.mp (foldr_mem hs d (ds.drop t.size)) with hfirst | hrest
    · rw [hfirst]
      exact List.mem_cons_self
    · exact List.mem_cons_of_mem _ (List.mem_of_mem_drop hrest)

theorem Inv.new_mem {t : Slot α} (h : t.Inv fits select) : t.group.getD t.size t.best ∈ t.group := by
  rw [List.getD_eq_getElem _ _ h.size_lt]
  exact List.getElem_mem _

theorem Inv.next (hs : Selects fits le select) {t : Slot α} (h : t.Inv fits select) :
    (t.next select).Inv fits select := by
  have hlt := h.size_lt
  refine ⟨h.fits, Nat.lt_of_le_of_lt (Nat.sub_le _ _) hlt, ?_⟩
  show Slot.best _ = (t.group.drop (t.size - 1 + 1)).foldr select (t.group.headD default)
  rcases Nat.eq_zero_or_pos t.size with hzero | hpos
  · -- the first member again
    have hne : t.group ≠ [] := List.ne_nil_of_length_pos (Nat.zero_lt_of_lt hlt)
    have hhead : t.group.getD t.size t.best = t.group.headD default := by
      rw [hzero]
      cases hgroup : t.group with
      | nil => exact absurd hgroup hne
      | cons d ds => rfl
    have hreduced := h.best_eq_reduced hzero
    calc (t.next select).best = select (t.group.headD default) (reduced select t.group) := by
          rw [← hhead, ← hreduced]
          rfl
      _ = t.best := (select_head_reduced hs hne h.fits).trans hreduced.symm
      _ = _ := by rw [h.best_eq, hzero]
  · rw [Nat.sub_add_cancel hpos, List.drop_eq_getElem_cons hlt, List.foldr_cons, ← h.best_eq,
      ← List.getD_eq_getElem t.group t.best hlt]
    rfl

end Slot

end GroupReduction
