import Mathlib.Data.List.Basic
import Mathlib.Data.List.GetD

/-!
# Packing values into words

A list is cut into blocks of `w` values, and every block is joined into one word. If every word holds the values of its
block, and padding after them (`Joins`), the words unpack to the list and to padding after it.
-/

namespace Packing

variable {α β : Type}

/-- The blocks of `w` values; the last one may be shorter. -/
def blocks (w : Nat) (l : List α) : List (List α) :=
  (List.range ((l.length + w - 1) / w)).map fun j => (l.drop (w * j)).take w

/-- The words of the blocks. -/
def pack (w : Nat) (join : List α → β) (l : List α) : List β := (blocks w l).map join

/-- The values at the `w` positions of every word. -/
def unpack (w : Nat) (get : β → Nat → α) (words : List β) : List α :=
  words.flatMap fun word => (List.range w).map (get word)

@[simp] theorem length_pack (w : Nat) (join : List α → β) (l : List α) :
    (pack w join l).length = (l.length + w - 1) / w := by
  simp [pack, blocks]

@[simp] theorem length_unpack (w : Nat) (get : β → Nat → α) (words : List β) :
    (unpack w get words).length = words.length * w := by
  simp [unpack, List.length_flatMap]

/-- The value at the position `i` is in the word `i / w`. -/
theorem getElem?_unpack {w : Nat} (hw : 0 < w) (get : β → Nat → α) (words : List β) (i : Nat) :
    (unpack w get words)[i]? = words[i / w]?.map fun word => get word (i % w) := by
  induction words generalizing i with
  | nil => rfl
  | cons word words ih =>
    have hcons : unpack w get (word :: words) = (List.range w).map (get word) ++ unpack w get words := rfl
    rw [hcons]
    by_cases hi : i < w
    · rw [List.getElem?_append_left (by simpa using hi), Nat.div_eq_of_lt hi, Nat.mod_eq_of_lt hi]
      simp [hi]
    · have hle : w ≤ i := Nat.le_of_not_lt hi
      rw [List.getElem?_append_right (by simpa using hle), List.length_map, List.length_range, ih,
        Nat.mod_eq_sub_mod hle, Nat.div_eq_sub_div hw hle, List.getElem?_cons_succ]

/-- Every word holds the values of its block, and the padding `d` after them. -/
def Joins (w : Nat) (join : List α → β) (get : β → Nat → α) (d : α) : Prop :=
  ∀ block : List α, block.length ≤ w → ∀ i < w, get (join block) i = block.getD i d

section Joins

variable {w : Nat} {join : List α → β} {get : β → Nat → α} {d : α}

/-- The value at the position `i` is at the position `i % w` of the word `i / w`. -/
theorem Joins.get_pack (h : Joins w join get d) (l : List α) {i : Nat} (hi : i < w * (pack w join l).length) :
    ∃ word, (pack w join l)[i / w]? = some word ∧ get word (i % w) = l.getD i d := by
  have hw : 0 < w := Nat.pos_of_ne_zero (by rintro rfl; simp at hi)
  have hmod := Nat.mod_lt i hw
  have hword : i / w < (l.length + w - 1) / w := by
    rw [length_pack] at hi
    exact Nat.div_lt_of_lt_mul hi
  refine ⟨join ((l.drop (w * (i / w))).take w), by simp [pack, blocks, hword], ?_⟩
  rw [h _ (List.length_take_le _ _) _ hmod, List.getD_eq_getElem?_getD, List.getD_eq_getElem?_getD,
    List.getElem?_take_of_lt hmod, List.getElem?_drop, Nat.div_add_mod]

/-- **Unpacking** gives the list back, followed by padding. -/
theorem Joins.take_unpack_pack (h : Joins w join get d) (hw : 0 < w) (l : List α) :
    (unpack w get (pack w join l)).take l.length = l := by
  have hfits : l.length ≤ w * (pack w join l).length := by
    have hdiv := Nat.div_add_mod (l.length + w - 1) w
    have hmod := Nat.mod_lt (l.length + w - 1) hw
    rw [length_pack]
    omega
  refine List.ext_getElem? fun i => ?_
  by_cases hi : i < l.length
  · obtain ⟨word, hword, hget⟩ := h.get_pack l (Nat.lt_of_lt_of_le hi hfits)
    rw [List.getElem?_take_of_lt hi, getElem?_unpack hw, hword, Option.map_some, hget, List.getD_eq_getElem _ _ hi,
      List.getElem?_eq_getElem hi]
  · have hle : l.length ≤ i := Nat.le_of_not_lt hi
    rw [List.getElem?_eq_none hle, List.getElem?_eq_none]
    rw [List.length_take]
    omega

end Joins

/-- A loop that puts the bits of a list into a word, each one at its own position from `k` on. -/
theorem bit_foldl_or {bit : β → Nat → Bool} {value : α → Bool} {put : β → α × Nat → β} {i : Nat} (l : List α)
    (k : Nat) (word : β)
    (hput : ∀ word a j, j < k + l.length → bit (put word (a, j)) i = (bit word i || decide (i = j) && value a)) :
    bit ((l.zipIdx k).foldl put word) i = (bit word i || decide (k ≤ i) && (l.map value).getD (i - k) false) := by
  induction l generalizing k word with
  | nil => simp
  | cons a l ih =>
    rw [List.length_cons] at hput
    rw [List.zipIdx_cons, List.foldl_cons, ih (k + 1) _ fun word a j hj => hput word a j (by omega),
      hput word a k (by omega), Bool.or_assoc]
    congr 1
    rcases Nat.lt_trichotomy i k with hlt | rfl | hgt
    · simp [Nat.ne_of_lt hlt, Nat.not_le.mpr hlt, show ¬ k + 1 ≤ i by omega]
    · simp [Nat.not_succ_le_self i]
    · have hsub : i - k = i - (k + 1) + 1 := by omega
      simp [Nat.ne_of_gt hgt, Nat.le_of_lt hgt, show k + 1 ≤ i by omega, hsub]

end Packing
