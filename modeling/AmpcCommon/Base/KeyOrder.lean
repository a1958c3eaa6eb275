import Mathlib.Data.List.Infix
import Mathlib.Data.List.Sort
import Mathlib.Order.Defs.LinearOrder

/-!
# The order of the elements with one key

Two lists can order elements with different keys as they like and still agree on each key: for every key, the
elements of the one with this key are the first of those of the other (`KeyPrefix`). Cutting a list and sorting it by
the key with a stable sort keep this relation. If two lists have the same keys at the same positions, and agree on each
key as far as both go, they agree at every position (`map_eq_map_of_keys`).
-/

namespace KeyOrder

variable {α β γ κ : Type}

/-! ## Stable sorting -/

section Sorting

variable [LinearOrder κ]

/-- `l.sort_by_key(key)`, a stable sort. -/
def sortByKey (key : α → κ) (l : List α) : List α := l.insertionSort fun a b => key a ≤ key b

theorem sortByKey_perm (key : α → κ) (l : List α) : (sortByKey key l).Perm l := List.perm_insertionSort _ l

theorem sortByKey_sorted (key : α → κ) (l : List α) : (sortByKey key l).Pairwise fun a b => key a ≤ key b := by
  have htrans : IsTrans α fun a b => key a ≤ key b := ⟨fun _ _ _ => le_trans⟩
  have htotal : Std.Total fun a b : α => key a ≤ key b := ⟨fun _ _ => le_total _ _⟩
  exact List.pairwise_insertionSort _ l

theorem map_sortByKey {key : α → κ} {key' : β → κ} {f : α → β} (hf : ∀ a, key' (f a) = key a) (l : List α) :
    (sortByKey key l).map f = sortByKey key' (l.map f) := by
  refine List.map_insertionSort _ _ f l ?_
  intro a _ b _
  rw [hf, hf]

end Sorting

/-! ## Prefixes, key by key -/

variable [DecidableEq κ]

/-- The elements with the key `k`, in their order. -/
def ofKey (key : α → κ) (k : κ) (l : List α) : List α := l.filter fun a => decide (key a = k)

theorem ofKey_cons_self (key : α → κ) (a : α) (l : List α) : ofKey key (key a) (a :: l) = a :: ofKey key (key a) l :=
  List.filter_cons_of_pos (by simp)

theorem ofKey_cons_of_ne {key : α → κ} {k : κ} {a : α} (h : key a ≠ k) (l : List α) :
    ofKey key k (a :: l) = ofKey key k l :=
  List.filter_cons_of_neg (by simpa using h)

theorem key_of_mem_ofKey {key : α → κ} {k : κ} {l : List α} {a : α} (h : a ∈ ofKey key k l) : key a = k :=
  of_decide_eq_true (List.mem_filter.mp h).2

theorem ofKey_ofKey (key : α → κ) (k : κ) (l : List α) : ofKey key k (ofKey key k l) = ofKey key k l :=
  List.filter_eq_self.mpr fun _ ha => decide_eq_true (key_of_mem_ofKey ha)

/-- For every key, the elements of `l` with this key are the first of those of `m`. -/
def KeyPrefix (key : α → κ) (l m : List α) : Prop := ∀ k, ofKey key k l <+: ofKey key k m

theorem KeyPrefix.trans {key : α → κ} {l m n : List α} (h : KeyPrefix key l m) (h' : KeyPrefix key m n) :
    KeyPrefix key l n :=
  fun k => (h k).trans (h' k)

theorem keyPrefix_take (key : α → κ) (n : Nat) (l : List α) : KeyPrefix key (l.take n) l := by
  intro k
  exact (List.take_prefix n l).filter _

/-- A stable sort leaves the elements with one key in their order. -/
theorem ofKey_sortByKey [LinearOrder κ] (key : α → κ) (k : κ) (l : List α) :
    ofKey key k (sortByKey key l) = ofKey key k l := by
  have hsorted : (ofKey key k l).Pairwise fun a b => key a ≤ key b := by
    rw [List.pairwise_iff_forall_sublist]
    intro a b hab
    have ha := key_of_mem_ofKey (hab.subset List.mem_cons_self)
    have hb := key_of_mem_ofKey (hab.subset (List.mem_cons_of_mem _ List.mem_cons_self))
    rw [ha, hb]
  have hsub : (ofKey key k l).Sublist (sortByKey key l) :=
    List.sublist_insertionSort hsorted List.filter_sublist
  have hsub' : (ofKey key k l).Sublist (ofKey key k (sortByKey key l)) := ofKey_ofKey key k l ▸ hsub.filter _
  have hperm : (ofKey key k (sortByKey key l)).Perm (ofKey key k l) := (sortByKey_perm key l).filter _
  exact (hsub'.eq_of_length hperm.length_eq.symm).symm

theorem keyPrefix_sortByKey [LinearOrder κ] (key : α → κ) (l : List α) : KeyPrefix key (sortByKey key l) l := by
  intro k
  rw [ofKey_sortByKey]

/-! ## Agreement -/

/-- One of the lists is a prefix of the other. -/
def Comparable (u v : List γ) : Prop := u <+: v ∨ v <+: u

theorem Comparable.restrict {u u' v v' : List γ} (hu : u' <+: u) (hv : v' <+: v) (h : Comparable u v) :
    Comparable u' v' := by
  rcases h with h | h
  · exact List.prefix_or_prefix_of_prefix (hu.trans h) hv
  · exact List.prefix_or_prefix_of_prefix hu (hv.trans h)

theorem comparable_cons_cons {x y : γ} {u v : List γ} : Comparable (x :: u) (y :: v) ↔ x = y ∧ Comparable u v := by
  unfold Comparable
  rw [List.cons_prefix_cons, List.cons_prefix_cons, @eq_comm _ y x, and_or_left]

/-- Two lists that have the same keys at the same positions, and agree on each key as far as both go, agree. -/
theorem map_eq_map_of_keys {key : α → κ} {key' : β → κ} {f : α → γ} {g : β → γ} {l : List α} {m : List β}
    (hkeys : l.map key = m.map key')
    (h : ∀ k, Comparable ((ofKey key k l).map f) ((ofKey key' k m).map g)) : l.map f = m.map g := by
  induction l generalizing m with
  | nil =>
    rw [List.map_nil] at hkeys
    rw [List.map_eq_nil_iff.mp hkeys.symm]
    rfl
  | cons a l ih =>
    cases m with
    | nil => cases hkeys
    | cons b m =>
      obtain ⟨hkey, hkeys⟩ := List.cons_eq_cons.mp hkeys
      have hhead := h (key a)
      rw [ofKey_cons_self, hkey, ofKey_cons_self, List.map_cons, List.map_cons, comparable_cons_cons] at hhead
      rw [List.map_cons, List.map_cons, hhead.1]
      congr 1
      refine ih hkeys fun k => ?_
      by_cases hk : key a = k
      · subst hk
        rw [hkey]
        exact hhead.2
      · have hrest := h k
        rwa [ofKey_cons_of_ne hk, ofKey_cons_of_ne (hkey ▸ hk)] at hrest

end KeyOrder
