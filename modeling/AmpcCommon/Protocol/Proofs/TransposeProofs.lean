import Mathlib
import AmpcCommon.Base.SingleBit
import AmpcCommon.Protocol.Transpose128

/-!
# Bit transposition, proofs

One level of the transposition exchanges one bit of the row number with the same bit of the column number
(`swapLevel_bit`). All levels together exchange the row number with the low bits of the column number, so the
transposed block has the bit `i` of the share `n` as bit `n` of the word `i`.

`transposePackU64_eq` says this for whole vectors: the words of the result are the words `plane` of bits of
the padded input, on both sides of the shares.
-/

namespace AmpcCommon.Protocol

/-- One of the two components of a share. -/
def Share.side {K : Nat} (left : Bool) (x : Share K) : BitVec K := if left then x.a else x.b

namespace Share

variable {K : Nat} (left : Bool)

@[simp] theorem side_zero : (0 : Share K).side left = 0 := by
  cases left <;> rfl

@[simp] theorem side_xor (x y : Share K) : (x ^^^ y).side left = x.side left ^^^ y.side left := by
  cases left <;> rfl

@[simp] theorem side_andConst (x : Share K) (m : BitVec K) :
    (x.andConst m).side left = x.side left &&& m := by
  cases left <;> rfl

@[simp] theorem side_shr (x : Share K) (n : Nat) : (x.shr n).side left = x.side left >>> n := by
  cases left <;> rfl

@[simp] theorem side_shl (x : Share K) (n : Nat) : (x.shl n).side left = x.side left <<< n := by
  cases left <;> rfl

@[simp] theorem side_mk (a b : BitVec K) : (⟨a, b⟩ : Share K).side left = if left then a else b := rfl

theorem ext_side {x y : Share K} (h : ∀ left, x.side left = y.side left) : x = y :=
  Share.ext (h true) (h false)

end Share

/-! ## One level -/

section Level

variable {W : Nat}

/-- What the pair of rows `k` and `k + j` swaps. -/
def swapDiff (m : BitVec W) (j k : Nat) (res : List (Share W)) : Share W :=
  (((res.getD k 0).shr j) ^^^ res.getD (k + j) 0).andConst m

theorem swapDiff_bit (m : BitVec W) (j k : Nat) (res : List (Share W)) (left : Bool) (n : Nat) :
    ((swapDiff m j k res).side left).getLsbD n =
      ((((res.getD k 0).side left).getLsbD (j + n) ^^ ((res.getD (k + j) 0).side left).getLsbD n) &&
        m.getLsbD n) := by
  simp only [swapDiff, Share.side_andConst, Share.side_xor, Share.side_shr, BitVec.getLsbD_and,
    BitVec.getLsbD_xor, BitVec.getLsbD_ushiftRight]

@[simp] theorem length_swapRows (m : BitVec W) (j k : Nat) (res : List (Share W)) :
    (swapRows m j k res).length = res.length := by
  simp [swapRows]

theorem getD_set {α : Type} {l : List α} {i : Nat} (hi : i < l.length) (v d : α) (k : Nat) :
    (l.set i v).getD k d = if k = i then v else l.getD k d := by
  by_cases hk : k = i
  · subst hk
    simp [List.getD_eq_getElem?_getD, hi]
  · simp [List.getD_eq_getElem?_getD, Ne.symm hk, hk]

theorem swapRows_getD {m : BitVec W} {j k : Nat} (hj : 0 < j) {res : List (Share W)}
    (hk : k + j < res.length) (r : Nat) :
    (swapRows m j k res).getD r 0 =
      if r = k then res.getD k 0 ^^^ (swapDiff m j k res).shl j
      else if r = k + j then res.getD (k + j) 0 ^^^ swapDiff m j k res
      else res.getD r 0 := by
  have hne : k ≠ k + j := by omega
  show ((res.set (k + j) _).set k (_ ^^^ (swapDiff m j k res).shl j)).getD r 0 = _
  rw [getD_set (by rw [List.length_set]; omega), getD_set hk, if_neg hne, getD_set hk]
  rfl

/-- Rows that are visited do not share a row with one another. -/
def Apart (j : Nat) (k k' : Nat) : Prop := k ≠ k' ∧ k ≠ k' + j ∧ k + j ≠ k'

instance (j k k' : Nat) : Decidable (Apart j k k') := inferInstanceAs (Decidable (_ ∧ _ ∧ _))

/-- The rows after the swaps of all pairs in `ks`. -/
theorem foldl_swapRows_getD {m : BitVec W} {j : Nat} (hj : 0 < j) {ks : List Nat}
    (hks : ks.Pairwise (Apart j)) {res : List (Share W)} (hlen : ∀ k ∈ ks, k + j < res.length)
    (r : Nat) :
    (ks.foldl (fun res k => swapRows m j k res) res).getD r 0 =
      if r ∈ ks then res.getD r 0 ^^^ (swapDiff m j r res).shl j
      else if j ≤ r ∧ r - j ∈ ks then res.getD r 0 ^^^ swapDiff m j (r - j) res
      else res.getD r 0 := by
  induction ks generalizing res with
  | nil => simp
  | cons k ks ih =>
    obtain ⟨hk, hks⟩ := List.pairwise_cons.mp hks
    have hklen := hlen k List.mem_cons_self
    have hlen' : ∀ k' ∈ ks, k' + j < (swapRows m j k res).length := by
      intro k' hk'
      rw [length_swapRows]
      exact hlen k' (List.mem_cons_of_mem _ hk')
    have hrow := fun r => swapRows_getD (m := m) hj hklen r
    -- the rows of the remaining pairs have not changed
    have hsame : ∀ k' ∈ ks, (swapRows m j k res).getD k' 0 = res.getD k' 0 ∧
        (swapRows m j k res).getD (k' + j) 0 = res.getD (k' + j) 0 := by
      intro k' hk'
      obtain ⟨h1, h2, h3⟩ := hk k' hk'
      constructor
      · rw [hrow, if_neg (Ne.symm h1), if_neg (Ne.symm h3)]
      · rw [hrow, if_neg (Ne.symm h2), if_neg (by omega)]
    have hdiff : ∀ k' ∈ ks, swapDiff m j k' (swapRows m j k res) = swapDiff m j k' res := by
      intro k' hk'
      unfold swapDiff
      rw [(hsame k' hk').1, (hsame k' hk').2]
    rw [List.foldl_cons, ih hks hlen']
    by_cases hr : r ∈ ks
    · rw [if_pos hr, if_pos (List.mem_cons_of_mem _ hr), hdiff r hr, (hsame r hr).1]
    · by_cases hrk : r = k
      · subst hrk
        have hlow : ¬ (j ≤ r ∧ r - j ∈ ks) := by
          rintro ⟨hle, hmem⟩
          obtain ⟨-, h2, -⟩ := hk _ hmem
          omega
        rw [if_neg hr, if_neg hlow, if_pos List.mem_cons_self, hrow, if_pos rfl]
      · have hcons : r ∉ k :: ks := by simp [hrk, hr]
        rw [if_neg hr, if_neg hcons]
        by_cases hup : j ≤ r ∧ r - j ∈ ks
        · obtain ⟨hle, hmem⟩ := hup
          have hsum : r - j + j = r := by omega
          have := (hsame _ hmem).2
          rw [hsum] at this
          rw [if_pos ⟨hle, hmem⟩, if_pos ⟨hle, List.mem_cons_of_mem _ hmem⟩, hdiff _ hmem, this]
        · rw [if_neg hup, hrow, if_neg hrk]
          by_cases hkj : r = k + j
          · subst hkj
            rw [if_pos rfl, if_pos ⟨by omega, by simp⟩, Nat.add_sub_cancel]
          · have hup' : ¬ (j ≤ r ∧ r - j ∈ k :: ks) := by
              rintro ⟨hle, hmem⟩
              rcases List.mem_cons.mp hmem with h | h
              · omega
              · exact hup ⟨hle, h⟩
            rw [if_neg hkj, if_neg hup']

/-- Exchange the bit `j` of two numbers. -/
def exchange (j r n : Nat) : Nat × Nat :=
  let d := (r ^^^ n) &&& j
  (r ^^^ d, n ^^^ d)

/-- What the proof needs to know about a level `j` with mask `m`: `j` is a single bit, the mask selects the
columns without it, and the rows without it are visited. -/
structure IsLevel (W rows j : Nat) (m : BitVec W) : Prop where
  single : ∀ n < W, n &&& j = 0 ∨ n &&& j = j
  clear : ∀ n < W, n &&& j = 0 → n + j < W ∧ n + j = n ^^^ j ∧ (n + j) &&& j ≠ 0
  set : ∀ n < W, n &&& j ≠ 0 → 0 < j ∧ j ≤ n ∧ n - j = n ^^^ j ∧ (n - j) &&& j = 0
  mask : ∀ n < W, m.getLsbD n = decide (n &&& j = 0)
  pos : 0 < j
  bound : rows ≤ W
  visited : ∀ k < rows, k ∈ visitedRows rows j rows 0 ↔ k &&& j = 0
  fits : ∀ k ∈ visitedRows rows j rows 0, k + j < rows
  apart : (visitedRows rows j rows 0).Pairwise (Apart j)

instance (W rows j : Nat) (m : BitVec W) : Decidable (IsLevel W rows j m) :=
  decidable_of_iff
    ((∀ n < W, n &&& j = 0 ∨ n &&& j = j) ∧
      (∀ n < W, n &&& j = 0 → n + j < W ∧ n + j = n ^^^ j ∧ (n + j) &&& j ≠ 0) ∧
      (∀ n < W, n &&& j ≠ 0 → 0 < j ∧ j ≤ n ∧ n - j = n ^^^ j ∧ (n - j) &&& j = 0) ∧
      (∀ n < W, m.getLsbD n = decide (n &&& j = 0)) ∧ 0 < j ∧ rows ≤ W ∧
      (∀ k < rows, k ∈ visitedRows rows j rows 0 ↔ k &&& j = 0) ∧
      (∀ k ∈ visitedRows rows j rows 0, k + j < rows) ∧
      (visitedRows rows j rows 0).Pairwise (Apart j))
    ⟨fun ⟨h1, h2, h3, h4, h5, h6, h7, h8, h9⟩ => ⟨h1, h2, h3, h4, h5, h6, h7, h8, h9⟩,
      fun ⟨h1, h2, h3, h4, h5, h6, h7, h8, h9⟩ => ⟨h1, h2, h3, h4, h5, h6, h7, h8, h9⟩⟩

theorem exchange_of_eq {j r n : Nat} (h : r &&& j = n &&& j) : exchange j r n = (r, n) := by
  unfold exchange
  rw [Nat.and_xor_distrib_right, h, Nat.xor_self]
  simp

theorem exchange_of_ne {j r n : Nat} (h : (r &&& j) ^^^ (n &&& j) = j) :
    exchange j r n = (r ^^^ j, n ^^^ j) := by
  unfold exchange
  rw [Nat.and_xor_distrib_right, h]

theorem IsLevel.closed {rows j : Nat} {m : BitVec W} (h : IsLevel W rows j m) {r n : Nat} (hr : r < rows)
    (hn : n < W) : (exchange j r n).1 < rows ∧ (exchange j r n).2 < W := by
  have hrW : r < W := lt_of_lt_of_le hr h.bound
  rcases h.single r hrW with hrj | hrj <;> rcases h.single n hn with hnj | hnj
  · rw [exchange_of_eq (hrj.trans hnj.symm)]
    exact ⟨hr, hn⟩
  · rw [exchange_of_ne (by rw [hrj, hnj, Nat.zero_xor])]
    obtain ⟨-, hrx, -⟩ := h.clear r hrW hrj
    obtain ⟨-, hle, hnx, -⟩ := h.set n hn (by rw [hnj]; exact h.pos.ne')
    have hfits := h.fits r ((h.visited r hr).mpr hrj)
    exact ⟨hrx ▸ hfits, hnx ▸ by omega⟩
  · rw [exchange_of_ne (by rw [hrj, hnj, Nat.xor_zero])]
    obtain ⟨-, hle, hrx, -⟩ := h.set r hrW (by rw [hrj]; exact h.pos.ne')
    obtain ⟨hlt, hnx, -⟩ := h.clear n hn hnj
    exact ⟨hrx ▸ by omega, hnx ▸ hlt⟩
  · rw [exchange_of_eq (hrj.trans hnj.symm)]
    exact ⟨hr, hn⟩

/-- **One level.** It exchanges one bit of the row number with the same bit of the column number. -/
theorem swapLevel_bit {rows j : Nat} {m : BitVec W} (h : IsLevel W rows j m) {res : List (Share W)}
    (hlen : res.length = rows) (left : Bool) {r n : Nat} (hr : r < rows) (hn : n < W) :
    (((swapLevel rows m j res).getD r 0).side left).getLsbD n =
      ((res.getD (exchange j r n).1 0).side left).getLsbD (exchange j r n).2 := by
  have hrW : r < W := lt_of_lt_of_le hr h.bound
  have hfits : ∀ k ∈ visitedRows rows j rows 0, k + j < res.length := by
    intro k hk
    rw [hlen]
    exact h.fits k hk
  unfold swapLevel
  rw [foldl_swapRows_getD h.pos h.apart hfits]
  rcases h.single r hrW with hrj | hrj
  · -- an upper row: it takes its columns with the bit `j` from the lower row
    rw [if_pos ((h.visited r hr).mpr hrj)]
    obtain ⟨-, hrx, -⟩ := h.clear r hrW hrj
    rcases h.single n hn with hnj | hnj
    · rw [exchange_of_eq (hrj.trans hnj.symm)]
      by_cases hle : j ≤ n
      · have hmask : m.getLsbD (n - j) = false := by
          rw [h.mask _ (by omega), decide_eq_false_iff_not]
          intro hzero
          obtain ⟨-, -, hset⟩ := h.clear (n - j) (by omega) hzero
          rw [Nat.sub_add_cancel hle] at hset
          exact hset hnj
        rw [Share.side_xor, Share.side_shl, BitVec.getLsbD_xor, BitVec.getLsbD_shiftLeft, swapDiff_bit, hmask]
        simp
      · rw [Share.side_xor, Share.side_shl, BitVec.getLsbD_xor, BitVec.getLsbD_shiftLeft]
        simp [show n < j by omega]
    · have hne : n &&& j ≠ 0 := by
        rw [hnj]
        exact h.pos.ne'
      obtain ⟨-, hle, hnx, hclear⟩ := h.set n hn hne
      have hmask : m.getLsbD (n - j) = true := by
        rw [h.mask _ (by omega), hclear]
        rfl
      rw [exchange_of_ne (by rw [hrj, hnj, Nat.zero_xor]), ← hrx, ← hnx]
      rw [Share.side_xor, Share.side_shl, BitVec.getLsbD_xor, BitVec.getLsbD_shiftLeft, swapDiff_bit, hmask,
        Nat.add_sub_cancel' hle, decide_eq_true hn, decide_eq_false (Nat.not_lt.mpr hle)]
      cases ((res.getD r 0).side left).getLsbD n <;> simp
  · -- a lower row: it takes its columns without the bit `j` from the upper row
    have hrne : r &&& j ≠ 0 := by
      rw [hrj]
      exact h.pos.ne'
    obtain ⟨-, hle, hrx, hclear⟩ := h.set r hrW hrne
    rw [if_neg (fun hmem => hrne ((h.visited r hr).mp hmem)),
      if_pos ⟨hle, (h.visited (r - j) (by omega)).mpr hclear⟩]
    have hsum : r - j + j = r := Nat.sub_add_cancel hle
    rcases h.single n hn with hnj | hnj
    · obtain ⟨hlt, hnx, -⟩ := h.clear n hn hnj
      have hmask : m.getLsbD n = true := by
        rw [h.mask n hn, hnj]
        rfl
      rw [exchange_of_ne (by rw [hrj, hnj, Nat.xor_zero]), ← hrx, ← hnx]
      rw [Share.side_xor, BitVec.getLsbD_xor, swapDiff_bit, hmask, hsum, Nat.add_comm j n]
      cases ((res.getD r 0).side left).getLsbD n <;> simp
    · have hmask : m.getLsbD n = false := by
        rw [h.mask n hn, hnj]
        simp [h.pos.ne']
      rw [exchange_of_eq (hrj.trans hnj.symm), Share.side_xor, BitVec.getLsbD_xor, swapDiff_bit, hmask]
      simp

@[simp] theorem length_swapLevel (rows : Nat) (m : BitVec W) (j : Nat) (res : List (Share W)) :
    (swapLevel rows m j res).length = res.length := by
  unfold swapLevel
  generalize visitedRows rows j rows 0 = ks
  induction ks generalizing res with
  | nil => rfl
  | cons k ks ih => rw [List.foldl_cons, ih, length_swapRows]

/-! ## All levels -/

/-- The levels of the outer loop with their masks. -/
def levels : Nat → Nat → BitVec W → List (Nat × BitVec W)
  | 0, _, _ => []
  | _ + 1, 0, _ => []
  | fuel + 1, j, m => (j, m) :: levels fuel (j >>> 1) (m ^^^ (m <<< (j >>> 1)))

/-- Where the bit at row `r` and column `n` comes from, after the levels in `ls`. -/
def origin : List (Nat × BitVec W) → Nat → Nat → Nat × Nat
  | [], r, n => (r, n)
  | (j, _) :: ls, r, n =>
    let (r', n') := origin ls r n
    exchange j r' n'

theorem transposeLoop_eq (rows fuel j : Nat) (m : BitVec W) (res : List (Share W)) :
    transposeLoop rows fuel j m res =
      (levels fuel j m).foldl (fun res l => swapLevel rows l.2 l.1 res) res := by
  fun_induction transposeLoop rows fuel j m res with
  | case1 => rfl
  | case2 fuel m res => rfl
  | case3 fuel j m res hj res' j' ih =>
    have hlevels : levels (fuel + 1) j m = (j, m) :: levels fuel (j >>> 1) (m ^^^ (m <<< (j >>> 1))) := by
      cases j with
      | zero => exact absurd rfl hj
      | succ j => rfl
    rw [ih, hlevels]
    rfl

theorem foldl_swapLevel_bit {rows : Nat} {ls : List (Nat × BitVec W)}
    (hls : ∀ l ∈ ls, IsLevel W rows l.1 l.2) {res : List (Share W)} (hlen : res.length = rows)
    (left : Bool) {r n : Nat} (hr : r < rows) (hn : n < W) :
    ((origin ls r n).1 < rows ∧ (origin ls r n).2 < W) ∧
    (((ls.foldl (fun res l => swapLevel rows l.2 l.1 res) res).getD r 0).side left).getLsbD n =
      ((res.getD (origin ls r n).1 0).side left).getLsbD (origin ls r n).2 := by
  induction ls generalizing res with
  | nil => exact ⟨⟨hr, hn⟩, rfl⟩
  | cons l ls ih =>
    have hl := hls l List.mem_cons_self
    have hlen' : (swapLevel rows l.2 l.1 res).length = rows := by
      rw [length_swapLevel, hlen]
    obtain ⟨⟨hr', hn'⟩, hbit⟩ := ih (fun l' hl' => hls l' (List.mem_cons_of_mem _ hl')) hlen'
    refine ⟨hl.closed hr' hn', ?_⟩
    rw [List.foldl_cons, hbit, swapLevel_bit hl hlen left hr' hn']
    rfl

/-- One exchange swaps the bit `i` of the two numbers. -/
theorem testBit_exchange (i r n k : Nat) :
    (exchange (2 ^ i) r n).1.testBit k = (if k = i then n else r).testBit k ∧
      (exchange (2 ^ i) r n).2.testBit k = (if k = i then r else n).testBit k := by
  simp only [exchange, Nat.testBit_xor, Nat.testBit_and, Nat.testBit_two_pow]
  by_cases hk : k = i
  · rw [if_pos hk, if_pos hk, decide_eq_true hk.symm]
    generalize r.testBit k = b, n.testBit k = c
    cases b <;> cases c <;> decide
  · rw [if_neg hk, if_neg hk, decide_eq_false (Ne.symm hk)]
    simp

/-- Exchanges of different bits swap all of these bits. -/
theorem testBit_origin {bits : List Nat} (hbits : bits.Nodup) {ls : List (Nat × BitVec W)}
    (hls : ls.map Prod.fst = bits.map (2 ^ ·)) (r n k : Nat) :
    (origin ls r n).1.testBit k = (if k ∈ bits then n else r).testBit k ∧
      (origin ls r n).2.testBit k = (if k ∈ bits then r else n).testBit k := by
  induction bits generalizing ls with
  | nil =>
    obtain rfl := List.map_eq_nil_iff.mp hls
    exact ⟨rfl, rfl⟩
  | cons i bits ih =>
    cases ls with
    | nil => cases hls
    | cons l ls =>
      obtain ⟨hi, hbits⟩ := List.nodup_cons.mp hbits
      obtain ⟨hl, hls⟩ := List.cons.inj hls
      obtain ⟨hrow, hcol⟩ := ih hbits hls
      have hstep : origin (l :: ls) r n = exchange (2 ^ i) (origin ls r n).1 (origin ls r n).2 := by
        rw [show 2 ^ i = l.1 from hl.symm]
        rfl
      obtain ⟨hfst, hsnd⟩ := testBit_exchange i (origin ls r n).1 (origin ls r n).2 k
      rw [hstep, hfst, hsnd]
      by_cases hk : k = i
      · subst hk
        rw [if_pos rfl, if_pos rfl, hrow, hcol, if_neg hi, if_neg hi, if_pos List.mem_cons_self,
          if_pos List.mem_cons_self]
        exact ⟨rfl, rfl⟩
      · have hmem : k ∈ i :: bits ↔ k ∈ bits := by simp [hk]
        rw [if_neg hk, if_neg hk, hrow, hcol]
        simp only [hmem, and_self]

/-- The levels of all low bits exchange the row number with the low bits of the column number. -/
theorem origin_eq {k : Nat} {ls : List (Nat × BitVec W)} (hls : ls.map Prod.fst = (List.range k).reverse.map (2 ^ ·))
    {r : Nat} (hr : r < 2 ^ k) (n : Nat) : origin ls r n = (n % 2 ^ k, n - n % 2 ^ k + r) := by
  have hbits := testBit_origin (List.nodup_reverse.mpr List.nodup_range) hls r n
  simp only [List.mem_reverse, List.mem_range] at hbits
  have hhigh : n - n % 2 ^ k = 2 ^ k * (n / 2 ^ k) := by
    have := Nat.div_add_mod n (2 ^ k)
    omega
  refine Prod.ext (Nat.eq_of_testBit_eq fun i => ?_) (Nat.eq_of_testBit_eq fun i => ?_)
  · rw [(hbits i).1, Nat.testBit_mod_two_pow]
    by_cases hi : i < k
    · simp [hi]
    · have hzero := Nat.testBit_lt_two_pow (lt_of_lt_of_le hr (Nat.pow_le_pow_right Nat.two_pos (not_lt.mp hi)))
      simp [hi, hzero]
  · rw [(hbits i).2, hhigh, Nat.testBit_two_pow_mul_add _ hr]
    by_cases hi : i < k
    · simp [hi]
    · rw [if_neg hi, if_neg hi, Nat.testBit_div_two_pow, Nat.sub_add_cancel (not_lt.mp hi)]

/-- **The transposition.** If the levels exchange all bits of the row number with the low bits of the column
number, the rows and the columns of each square block are exchanged. -/
theorem transposeLoop_bit {rows k fuel j : Nat} {m : BitVec W} (hrows : rows = 2 ^ k)
    (hls : ∀ l ∈ levels fuel j m, IsLevel W rows l.1 l.2)
    (hbits : (levels fuel j m).map Prod.fst = (List.range k).reverse.map (2 ^ ·))
    {res : List (Share W)} (hlen : res.length = rows) (left : Bool) {r n : Nat} (hr : r < rows)
    (hn : n < W) :
    (((transposeLoop rows fuel j m res).getD r 0).side left).getLsbD n =
      ((res.getD (n % rows) 0).side left).getLsbD (n - n % rows + r) := by
  have horigin := origin_eq hbits (hrows ▸ hr) n
  rw [transposeLoop_eq, (foldl_swapLevel_bit hls hlen left hr hn).2, horigin, hrows]

end Level

/-! ## Levels of single bits -/

section Bits

open SingleBit

/-- The next row has the bit clear again, and the rows in between do not. -/
theorem nextRow_spec {k e : Nat} (hk : k &&& 2 ^ e = 0) :
    k < nextRow (2 ^ e) k ∧ nextRow (2 ^ e) k &&& 2 ^ e = 0 ∧
      ∀ i, k < i → i < nextRow (2 ^ e) k → i &&& 2 ^ e ≠ 0 := by
  by_cases hnext : (k + 1) &&& 2 ^ e = 0
  · have hrow : nextRow (2 ^ e) k = k + 1 := by
      unfold nextRow
      rw [show k + 2 ^ e + 1 = k + 1 + 2 ^ e by omega, and_two_pow_of_ne_zero (add_two_pow_and_ne_zero hnext)]
      omega
    rw [hrow]
    exact ⟨by omega, hnext, fun i hi hi' => by omega⟩
  · -- `k` is the last row of its half of the block
    rw [and_two_pow_eq_zero_iff] at hk hnext
    have hdiv := Nat.div_add_mod k (2 * 2 ^ e)
    have hmod : ∀ d < 2 * 2 ^ e, (2 * 2 ^ e * (k / (2 * 2 ^ e)) + d) % (2 * 2 ^ e) = d := by
      intro d hd
      rw [Nat.mul_add_mod, Nat.mod_eq_of_lt hd]
    have hlast : k % (2 * 2 ^ e) + 1 = 2 ^ e := by
      have h1 := hmod (k % (2 * 2 ^ e) + 1) (by omega)
      rw [← Nat.add_assoc, hdiv] at h1
      omega
    have hclear : (k + 2 ^ e + 1) &&& 2 ^ e = 0 := by
      rw [and_two_pow_eq_zero_iff, show k + 2 ^ e + 1 = 2 * 2 ^ e * (k / (2 * 2 ^ e)) + 2 * 2 ^ e by omega,
        Nat.add_mod_right, Nat.mul_mod_right]
      exact Nat.two_pow_pos e
    have hrow : nextRow (2 ^ e) k = k + 2 ^ e + 1 := by
      unfold nextRow
      rw [hclear, Nat.sub_zero]
    rw [hrow]
    refine ⟨by omega, hclear, fun i hi hi' => ?_⟩
    have hsum : 2 * 2 ^ e * (k / (2 * 2 ^ e)) + (i - k + k % (2 * 2 ^ e)) = i := by omega
    have hi2 := hmod (i - k + k % (2 * 2 ^ e)) (by omega)
    rw [hsum] at hi2
    rw [Ne, and_two_pow_eq_zero_iff, hi2]
    omega

section Visited

variable {rows e : Nat}

theorem mem_visitedRows {fuel k : Nat} (hk : k &&& 2 ^ e = 0) (hfuel : rows ≤ k + fuel) (i : Nat) :
    i ∈ visitedRows rows (2 ^ e) fuel k ↔ k ≤ i ∧ i < rows ∧ i &&& 2 ^ e = 0 := by
  induction fuel generalizing k with
  | zero =>
    rw [visitedRows]
    constructor
    · intro h
      cases h
    · rintro ⟨h1, h2, -⟩
      omega
  | succ fuel ih =>
    obtain ⟨hlt, hclear, hbetween⟩ := nextRow_spec hk
    rw [visitedRows]
    split_ifs with hrow
    · rw [List.mem_cons, ih hclear (by omega)]
      constructor
      · rintro (rfl | ⟨h1, h2, h3⟩)
        · exact ⟨le_rfl, hrow, hk⟩
        · exact ⟨by omega, h2, h3⟩
      · rintro ⟨h1, h2, h3⟩
        rcases Nat.eq_or_lt_of_le h1 with rfl | h1
        · exact Or.inl rfl
        · refine Or.inr ⟨?_, h2, h3⟩
          by_contra hlow
          exact hbetween i h1 (Nat.not_le.mp hlow) h3
    · constructor
      · intro h
        cases h
      · rintro ⟨h1, h2, -⟩
        omega

theorem sorted_visitedRows {fuel k : Nat} (hk : k &&& 2 ^ e = 0) (hfuel : rows ≤ k + fuel) :
    (visitedRows rows (2 ^ e) fuel k).Pairwise (· < ·) := by
  induction fuel generalizing k with
  | zero => exact List.Pairwise.nil
  | succ fuel ih =>
    obtain ⟨hlt, hclear, -⟩ := nextRow_spec hk
    rw [visitedRows]
    split_ifs with hrow
    · refine List.pairwise_cons.mpr ⟨fun i hi => ?_, ih hclear (by omega)⟩
      have hle := ((mem_visitedRows hclear (by omega) i).mp hi).1
      omega
    · exact List.Pairwise.nil

/-- A mask that selects the columns without the bit `e` makes a level of blocks of a power of two of rows. -/
theorem isLevel_two_pow {W : Nat} {m : BitVec W} (hW : 2 ^ (e + 1) ∣ W) (hrows : 2 ^ (e + 1) ∣ rows) (hle : rows ≤ W)
    (hmask : ∀ n < W, m.getLsbD n = decide (n &&& 2 ^ e = 0)) : IsLevel W rows (2 ^ e) m where
  single n _ := by
    by_cases h : n &&& 2 ^ e = 0
    · exact Or.inl h
    · exact Or.inr (and_two_pow_of_ne_zero h)
  clear n hn h := ⟨add_two_pow_lt hW hn h, add_two_pow_eq_xor h, add_two_pow_and_ne_zero h⟩
  set n _ h := by
    obtain ⟨hclear, hsum⟩ := xor_two_pow_of_ne_zero h
    have hsub : n - 2 ^ e = n ^^^ 2 ^ e := by omega
    exact ⟨Nat.two_pow_pos e, by omega, hsub, hsub ▸ hclear⟩
  mask := hmask
  pos := Nat.two_pow_pos e
  bound := hle
  visited k hk := by
    rw [mem_visitedRows (Nat.zero_and _) (by omega)]
    exact ⟨fun h => h.2.2, fun h => ⟨Nat.zero_le k, hk, h⟩⟩
  fits k hk := by
    obtain ⟨-, hlt, hclear⟩ := (mem_visitedRows (Nat.zero_and _) (by omega) k).mp hk
    exact add_two_pow_lt hrows hlt hclear
  apart := by
    have hmem : ∀ i, i ∈ visitedRows rows (2 ^ e) rows 0 ↔ 0 ≤ i ∧ i < rows ∧ i &&& 2 ^ e = 0 :=
      mem_visitedRows (Nat.zero_and _) (by omega)
    refine (sorted_visitedRows (Nat.zero_and _) (by omega)).imp_of_mem fun {k k'} hk hk' hlt => ?_
    have hclear := ((hmem k).mp hk).2.2
    have hclear' := ((hmem k').mp hk').2.2
    refine ⟨by omega, by omega, fun hsum => ?_⟩
    rw [← hsum] at hclear'
    exact add_two_pow_and_ne_zero hclear hclear'

end Visited

/-- The mask of the next level selects the columns without the next lower bit. -/
theorem mask_next {W e : Nat} {m : BitVec W} (hmask : ∀ n < W, m.getLsbD n = decide (n &&& 2 ^ (e + 1) = 0)) :
    ∀ n < W, (m ^^^ (m <<< 2 ^ e)).getLsbD n = decide (n &&& 2 ^ e = 0) := by
  intro n hn
  have hpos := Nat.two_pow_pos e
  have hhigh : ∀ n < W, m.getLsbD n = decide (n % (2 * (2 * 2 ^ e)) < 2 * 2 ^ e) := by
    intro n hn
    rw [hmask n hn, decide_eq_decide, and_two_pow_eq_zero_iff, Nat.pow_succ, Nat.mul_comm (2 ^ e) 2]
  have hlow : n &&& 2 ^ e = 0 ↔ n % (2 * 2 ^ e) < 2 ^ e := and_two_pow_eq_zero_iff n e
  -- the place of the column among the four quarters of a block
  have hhalf : n % (2 * (2 * 2 ^ e)) = n % (2 * 2 ^ e) + 2 * 2 ^ e * (n / (2 * 2 ^ e) % 2) := by
    rw [Nat.mul_comm 2 (2 * 2 ^ e), Nat.mod_mul]
  have hlt := Nat.mod_lt n (show 0 < 2 * 2 ^ e by omega)
  rw [BitVec.getLsbD_xor, BitVec.getLsbD_shiftLeft, hhigh n hn, decide_eq_true hn, Bool.true_and]
  by_cases hle : 2 ^ e ≤ n
  · rw [hhigh (n - 2 ^ e) (by omega), decide_eq_false (Nat.not_lt.mpr hle), Bool.not_false, Bool.true_and]
    have hsub := sub_mod_of_le hpos hle
    rcases Nat.mod_two_eq_zero_or_one (n / (2 * 2 ^ e)) with h | h
    · rw [h] at hhalf
      by_cases hquarter : n % (2 * 2 ^ e) < 2 ^ e
      · rw [decide_eq_true (by omega), decide_eq_false (by omega), decide_eq_true (hlow.mpr hquarter)]
        rfl
      · rw [decide_eq_true (by omega), decide_eq_true (by omega), decide_eq_false (hquarter ∘ hlow.mp)]
        rfl
    · rw [h] at hhalf
      by_cases hquarter : n % (2 * 2 ^ e) < 2 ^ e
      · rw [decide_eq_false (by omega), decide_eq_true (by omega), decide_eq_true (hlow.mpr hquarter)]
        rfl
      · rw [decide_eq_false (by omega), decide_eq_false (by omega), decide_eq_false (hquarter ∘ hlow.mp)]
        rfl
  · have hsmall : n < 2 ^ e := Nat.not_le.mp hle
    have hclear : n % (2 * 2 ^ e) < 2 ^ e := by rwa [Nat.mod_eq_of_lt (by omega)]
    rw [Nat.mod_eq_of_lt (show n < 2 * (2 * 2 ^ e) by omega), decide_eq_true (show n < 2 * 2 ^ e by omega),
      decide_eq_true hsmall, decide_eq_true (hlow.mpr hclear)]
    rfl

/-- Every level of the loop exchanges a bit. -/
theorem levels_isLevel {W rows fuel e : Nat} {m : BitVec W} (hW : 2 ^ (e + 1) ∣ W) (hrows : 2 ^ (e + 1) ∣ rows)
    (hle : rows ≤ W) (hmask : ∀ n < W, m.getLsbD n = decide (n &&& 2 ^ e = 0)) :
    ∀ l ∈ levels fuel (2 ^ e) m, IsLevel W rows l.1 l.2 := by
  induction fuel generalizing e m with
  | zero =>
    intro l hl
    cases hl
  | succ fuel ih =>
    intro l hl
    have hcons : levels (fuel + 1) (2 ^ e) m =
        (2 ^ e, m) :: levels fuel (2 ^ e >>> 1) (m ^^^ (m <<< (2 ^ e >>> 1))) := by
      cases h : 2 ^ e with
      | zero => exact absurd h (Nat.two_pow_pos e).ne'
      | succ j => rfl
    rw [hcons] at hl
    rcases List.mem_cons.mp hl with rfl | hl
    · exact isLevel_two_pow hW hrows hle hmask
    · cases e with
      | zero =>
        cases fuel <;> cases hl
      | succ e =>
        have hshift : 2 ^ (e + 1) >>> 1 = 2 ^ e := by
          rw [Nat.shiftRight_one, Nat.pow_succ, Nat.mul_div_cancel _ Nat.two_pos]
        rw [hshift] at hl
        have hdvd : 2 ^ (e + 1) ∣ 2 ^ (e + 1 + 1) := Nat.pow_dvd_pow 2 (Nat.le_succ _)
        exact ih (hdvd.trans hW) (hdvd.trans hrows) (mask_next hmask) l hl

end Bits

/-! ## Blocks of 64 shares -/

theorem levels16_isLevel : ∀ l ∈ levels 16 8 0x00ff00ff00ff00ff#64, IsLevel 64 16 l.1 l.2 :=
  levels_isLevel (e := 3) (by decide) (by decide) (by decide) (by decide)

theorem levels32_isLevel : ∀ l ∈ levels 32 16 0x0000ffff0000ffff#64, IsLevel 64 32 l.1 l.2 :=
  levels_isLevel (e := 4) (by decide) (by decide) (by decide) (by decide)

theorem levels64_isLevel : ∀ l ∈ levels 64 32 0x00000000ffffffff#64, IsLevel 64 64 l.1 l.2 :=
  levels_isLevel (e := 5) (by decide) (by decide) (by decide) (by decide)

/-- A bit of a word that is shifted to its place among words of its width. -/
theorem getLsbD_shifted {w W : Nat} (x : BitVec w) (q : Nat) {c r : Nat} (hr : r < w) (hW : w * c + r < W) :
    (x.setWidth W <<< (w * q)).getLsbD (w * c + r) = (decide (c = q) && x.getLsbD r) := by
  rw [BitVec.getLsbD_shiftLeft, BitVec.getLsbD_setWidth]
  rcases Nat.lt_trichotomy c q with h | h | h
  · have hle : w * (c + 1) ≤ w * q := Nat.mul_le_mul_left w h
    rw [Nat.mul_add] at hle
    simp [show w * c + r < w * q by omega, h.ne]
  · subst h
    simp [hW, Nat.lt_of_le_of_lt (Nat.le_add_left r _) hW]
  · have hle : w * (q + 1) ≤ w * c := Nat.mul_le_mul_left w h
    rw [Nat.mul_add] at hle
    rw [BitVec.getLsbD_of_ge x _ (by omega)]
    simp [h.ne']

/-- The words `xs` at the places from `k` on, over `acc`. -/
def joinWords {w W : Nat} : List (BitVec w) → Nat → BitVec W → BitVec W
  | [], _, acc => acc
  | x :: xs, k, acc => joinWords xs (k + 1) (acc ||| x.setWidth W <<< (w * k))

theorem joinWords_bit {w W : Nat} (xs : List (BitVec w)) (k : Nat) (acc : BitVec W) {c r : Nat} (hr : r < w)
    (hW : w * c + r < W) :
    (joinWords xs k acc).getLsbD (w * c + r) =
      (acc.getLsbD (w * c + r) || (decide (k ≤ c) && (xs.getD (c - k) 0).getLsbD r)) := by
  induction xs generalizing k acc with
  | nil => simp [joinWords]
  | cons x xs ih =>
    unfold joinWords
    rw [ih, BitVec.getLsbD_or, getLsbD_shifted x k hr hW, Bool.or_assoc]
    congr 1
    rcases Nat.lt_trichotomy c k with h | h | h
    · simp [show ¬ k + 1 ≤ c by omega, show ¬ k ≤ c by omega, h.ne]
    · subst h
      simp
    · simp [show k + 1 ≤ c by omega, show k ≤ c by omega, h.ne', show c - k = (c - (k + 1)) + 1 by omega]

/-- The word of `x` and `xs` has the bits of these words one after the other. -/
theorem joinWords_cons_bit {w W : Nat} (x : BitVec w) (xs : List (BitVec w)) {c r : Nat} (hr : r < w)
    (hW : w * c + r < W) :
    (joinWords xs 1 (x.setWidth W)).getLsbD (w * c + r) = ((x :: xs).getD c 0).getLsbD r := by
  have hfirst := joinWords_bit (x :: xs) 0 (0 : BitVec W) hr hW
  have hzero : joinWords (x :: xs) 0 (0 : BitVec W) = joinWords xs 1 (x.setWidth W) := by
    simp [joinWords]
  rw [hzero] at hfirst
  simpa using hfirst

/-- A vector that is built row by row. -/
theorem getD_map_range {α : Type} {n i : Nat} (hi : i < n) (f : Nat → α) (d : α) :
    ((List.range n).map f).getD i d = f i := by
  simp [List.getD_eq_getElem?_getD, hi]

/-- A block of `W` shares is transposed. -/
def TransposesBlocks {K W : Nat} (transpose : List (Share K) → List (Share W)) : Prop :=
  ∀ block, block.length = W → ∀ left, ∀ k < K, ∀ i < W,
    (((transpose block).getD k 0).side left).getLsbD i = ((block.getD i 0).side left).getLsbD k

/-- The words before the loop: the word `i` holds the `blocks` shares `i`, `i + K` and so on, one after the other. -/
def PacksRows {K W : Nat} (blocks : Nat) (pack : List (Share K) → Nat → Share W) : Prop :=
  ∀ block i left, (pack block i).side left =
    joinWords ((List.range (blocks - 1)).map fun c => (block.getD (K * (c + 1) + i) 0).side left) 1
      (((block.getD i 0).side left).setWidth W)

theorem PacksRows.bit {K W blocks : Nat} {pack : List (Share K) → Nat → Share W} (h : PacksRows blocks pack)
    (block : List (Share K)) (left : Bool) (i : Nat) {c r : Nat} (hc : c < blocks) (hr : r < K)
    (hW : K * c + r < W) :
    ((pack block i).side left).getLsbD (K * c + r) = ((block.getD (K * c + i) 0).side left).getLsbD r := by
  rw [h, joinWords_cons_bit _ _ hr hW]
  cases c with
  | zero => rw [Nat.mul_zero, Nat.zero_add, List.getD_cons_zero]
  | succ c => rw [List.getD_cons_succ, getD_map_range (by omega)]

/-- The loop transposes what is packed row by row. -/
theorem transposeLoop_transposes {K W blocks k fuel j : Nat} {m : BitVec W} (hK : K = 2 ^ k) (hW : W = K * blocks)
    (hls : ∀ l ∈ levels fuel j m, IsLevel W K l.1 l.2)
    (hbits : (levels fuel j m).map Prod.fst = (List.range k).reverse.map (2 ^ ·))
    {pack : List (Share K) → Nat → Share W} (hpack : PacksRows blocks pack) :
    TransposesBlocks fun block => transposeLoop K fuel j m ((List.range K).map (pack block)) := by
  intro block _ left r hr n hn
  have hmod : n % K < K := Nat.mod_lt n (Nat.zero_lt_of_lt hr)
  have hdiv := Nat.div_add_mod n K
  have hc : n / K < blocks := Nat.div_lt_of_lt_mul (hW ▸ hn)
  have hle : K * (n / K + 1) ≤ K * blocks := Nat.mul_le_mul_left K hc
  rw [Nat.mul_add] at hle
  rw [transposeLoop_bit hK hls hbits (by simp) left hr hn, getD_map_range hmod, show n - n % K = K * (n / K) by omega,
    hpack.bit block left _ hc hr (by omega), hdiv]

theorem shareTranspose16x64_transposes : TransposesBlocks shareTranspose16x64 := by
  have hpack : PacksRows 4 fun (a : List (Share 16)) i =>
      share64FromShare16s (a.getD i 0) (a.getD (16 + i) 0) (a.getD (32 + i) 0) (a.getD (48 + i) 0) := by
    intro a i left
    cases left <;> rfl
  exact transposeLoop_transposes (by decide : 16 = 2 ^ 4) (by decide) levels16_isLevel rfl hpack

theorem shareTranspose32x64_transposes : TransposesBlocks shareTranspose32x64 := by
  have hpack : PacksRows 2 fun (a : List (Share 32)) i => share64FromShare32s (a.getD i 0) (a.getD (32 + i) 0) := by
    intro a i left
    cases left <;> rfl
  exact transposeLoop_transposes (by decide : 32 = 2 ^ 5) (by decide) levels32_isLevel rfl hpack

/-- **A transposed block** has the bit `i` of the share `n` as bit `n` of the word `i`. -/
theorem transposeBlock_bit (t : RingTy) {block : List (Share t.bits)} (hlen : block.length = 64)
    (left : Bool) {i n : Nat} (hi : i < t.bits) (hn : n < 64) :
    (((transposeBlock t block).getD i 0).side left).getLsbD n =
      ((block.getD n 0).side left).getLsbD i := by
  cases t with
  | u16 => exact shareTranspose16x64_transposes block hlen left i hi n hn
  | u32 => exact shareTranspose32x64_transposes block hlen left i hi n hn
  | u64 =>
    have hi : i < 64 := hi
    show (((shareTranspose64x64 block).getD i 0).side left).getLsbD n = _
    unfold shareTranspose64x64
    rw [transposeLoop_bit (by decide : 64 = 2 ^ 6) levels64_isLevel rfl hlen left hi hn, Nat.mod_eq_of_lt hn,
      Nat.sub_self, Nat.zero_add]
    rfl
  | ring48 =>
    have hi : i < 48 := hi
    have hi64 : i < 64 := by omega
    rw [transposeBlock, shareTranspose64x64]
    have htake : ∀ l : List (Share 64), (l.take 48).getD i 0 = l.getD i 0 := by
      intro l
      simp [List.getD_eq_getElem?_getD, hi]
    rw [htake, transposeLoop_bit (by decide : 64 = 2 ^ 6) levels64_isLevel rfl (by simpa using hlen) left hi64 hn,
      Nat.mod_eq_of_lt hn, Nat.sub_self, Nat.zero_add]
    have hn' : n < block.length := by omega
    cases left <;> simp [List.getD_eq_getElem?_getD, hn', Share.side, hi64]

/-! ## Whole vectors -/

/-- The word `j` of the bit plane `i`: the bits `i` of 64 ring elements, with zeros after the last one. -/
def plane {K : Nat} (ws : List (BitVec K)) (i j : Nat) : BitVec 64 :=
  BitVec.ofFnLE fun n : Fin 64 => (ws.getD (64 * j + n) 0).getLsbD i

theorem plane_bit {K : Nat} (ws : List (BitVec K)) (i j : Nat) {n : Nat} (hn : n < 64) :
    (plane ws i j).getLsbD n = (ws.getD (64 * j + n) 0).getLsbD i := by
  unfold plane
  rw [BitVec.getLsbD_ofFnLE, dif_pos hn]

/-- The number of words of a bit plane. -/
def words (len : Nat) : Nat := (len + 63) / 64

section Pad

variable {K W : Nat}

theorem length_padTo (hW : 0 < W) (shares : List (Share K)) :
    (padTo W shares).length = (shares.length + (W - 1)) / W * W := by
  have hle : shares.length ≤ (shares.length + (W - 1)) / W * W := by
    have h := Nat.div_add_mod (shares.length + (W - 1)) W
    have hmod := Nat.mod_lt (shares.length + (W - 1)) hW
    rw [Nat.mul_comm] at h
    omega
  unfold padTo
  rw [List.length_append, List.length_replicate]
  omega

theorem getD_padTo (shares : List (Share K)) (k : Nat) : (padTo W shares).getD k 0 = shares.getD k 0 := by
  unfold padTo
  by_cases hk : k < shares.length
  · simp [List.getD_eq_getElem?_getD, List.getElem?_append_left hk]
  · have hk : shares.length ≤ k := Nat.le_of_not_lt hk
    simp only [List.getD_eq_getElem?_getD, List.getElem?_append_right hk, List.getElem?_replicate,
      List.getElem?_eq_none hk, Option.getD_none]
    split <;> rfl

/-- The block `j` of the padded vector. -/
theorem padTo_block (hW : 0 < W) (shares : List (Share K)) {j : Nat} (hj : j < (shares.length + (W - 1)) / W) :
    (((padTo W shares).drop (W * j)).take W).length = W ∧
      ∀ i < W, (((padTo W shares).drop (W * j)).take W).getD i 0 = shares.getD (W * j + i) 0 := by
  constructor
  · have hfit : (j + 1) * W ≤ (shares.length + (W - 1)) / W * W := Nat.mul_le_mul_right W hj
    rw [Nat.succ_mul, Nat.mul_comm j] at hfit
    rw [List.length_take, List.length_drop, length_padTo hW]
    omega
  · intro i hi
    rw [← @getD_padTo K W shares]
    simp [List.getD_eq_getElem?_getD, hi]

end Pad

theorem getD_map_side {K : Nat} (shares : List (Share K)) (left : Bool) (k : Nat) :
    (shares.map (Share.side left)).getD k 0 = (shares.getD k 0).side left := by
  rw [← Share.side_zero left]
  exact List.getD_map _ _ _

/-- **The bit planes of a vector.** Both sides are transposed alike. -/
theorem transposePackU64_eq (t : RingTy) (shares : List (Share t.bits)) :
    transposePackU64 t shares = (List.range t.bits).map fun i =>
      (List.range (words shares.length)).map fun j =>
        ⟨plane (shares.map Share.a) i j, plane (shares.map Share.b) i j⟩ := by
  have hpad : padTo64 shares = padTo 64 shares := rfl
  have hwords : (padTo 64 shares).length / 64 = words shares.length := by
    rw [length_padTo (by decide), Nat.mul_div_cancel _ (by decide)]
    rfl
  unfold transposePackU64 chunksExact
  simp only [List.map_map, hpad, hwords]
  refine List.map_congr_left fun i hi => List.map_congr_left fun j hj => ?_
  rw [List.mem_range] at hi hj
  obtain ⟨hlen, hget⟩ := @padTo_block t.bits 64 (by decide) shares j hj
  refine Share.ext_side fun left => BitVec.eq_of_getLsbD_eq fun n hn => ?_
  show (((transposeBlock t (((padTo 64 shares).drop (64 * j)).take 64)).getD i 0).side left).getLsbD n = _
  rw [transposeBlock_bit t hlen left hi hn]
  rw [hget n hn, ← getD_map_side]
  cases left
  · exact (plane_bit _ _ _ hn).symm
  · exact (plane_bit _ _ _ hn).symm

end AmpcCommon.Protocol
