import Mathlib.Data.List.Basic
import Mathlib.Tactic.Ring

/-!
# Little-endian byte strings

`LittleEndian.encode k n` is the low `k` bytes of `n`, least significant byte first, and
`LittleEndian.decode` reads such a string back. `LittleEndian.chunks` cuts a string into pieces of one
width, as an array of fixed-width words lies in memory.
-/

namespace LittleEndian

/-- The low `k` bytes of `n`, least significant first. -/
def encode : Nat → Nat → List UInt8
  | 0, _ => []
  | k + 1, n => UInt8.ofNat n :: encode k (n / 256)

/-- The number a byte string stands for, least significant byte first. -/
def decode : List UInt8 → Nat
  | [] => 0
  | b :: bs => b.toNat + 256 * decode bs

/-- The first `n` pieces of width `w` of a byte string. -/
def chunks (w : Nat) : Nat → List UInt8 → List (List UInt8)
  | 0, _ => []
  | n + 1, bs => bs.take w :: chunks w n (bs.drop w)

@[simp] theorem length_encode (k n : Nat) : (encode k n).length = k := by
  induction k generalizing n with
  | zero => rfl
  | succ k ih => simp [encode, ih]

theorem decode_encode (k n : Nat) : decode (encode k n) = n % 256 ^ k := by
  induction k generalizing n with
  | zero => simp [encode, decode, Nat.mod_one]
  | succ k ih =>
    have hbyte : (UInt8.ofNat n).toNat = n % 256 := rfl
    rw [encode, decode, ih, hbyte, Nat.pow_succ', Nat.mod_mul]

theorem decode_encode_of_lt {k n : Nat} (h : n < 256 ^ k) : decode (encode k n) = n := by
  rw [decode_encode, Nat.mod_eq_of_lt h]

theorem decode_lt (bs : List UInt8) : decode bs < 256 ^ bs.length := by
  induction bs with
  | nil => simp [decode]
  | cons b bs ih =>
    have hb : b.toNat < 256 := b.toNat_lt
    rw [decode, List.length_cons, Nat.pow_succ']
    omega

theorem encode_decode (bs : List UInt8) : encode bs.length (decode bs) = bs := by
  induction bs with
  | nil => rfl
  | cons b bs ih =>
    have hb : b.toNat < 256 := b.toNat_lt
    have hdiv : (b.toNat + 256 * decode bs) / 256 = decode bs := by omega
    have hlow : UInt8.ofNat (b.toNat + 256 * decode bs) = b := by
      apply UInt8.toNat_inj.mp
      rw [UInt8.toNat_ofNat']
      omega
    rw [List.length_cons, decode, encode, hdiv, ih, hlow]

/-- The low bytes of an encoding encode the same number. -/
theorem take_encode {m k : Nat} (h : m ≤ k) (n : Nat) : (encode k n).take m = encode m n := by
  induction m generalizing k n with
  | zero => rfl
  | succ m ih =>
    obtain ⟨k, rfl⟩ : ∃ k', k = k' + 1 := ⟨k - 1, by omega⟩
    rw [encode, encode, List.take_succ_cons, ih (by omega)]

/-- Zero bytes at the high end do not change the number. -/
theorem decode_append_zeros (bs : List UInt8) (m : Nat) :
    decode (bs ++ List.replicate m 0) = decode bs := by
  induction bs with
  | nil =>
    induction m with
    | zero => rfl
    | succ m ih => simpa [List.replicate_succ, decode] using ih
  | cons b bs ih => rw [List.cons_append, decode, decode, ih]

/-- Cutting up the concatenation of strings of width `w` gives these strings back. -/
theorem chunks_flatten {w : Nat} (bss : List (List UInt8)) (h : ∀ bs ∈ bss, bs.length = w) :
    chunks w bss.length bss.flatten = bss := by
  induction bss with
  | nil => rfl
  | cons bs bss ih =>
    have hbs : bs.length = w := h bs List.mem_cons_self
    rw [List.length_cons, chunks, List.flatten_cons, List.take_left' hbs, List.drop_left' hbs,
      ih fun b hb => h b (List.mem_cons_of_mem _ hb)]

theorem length_flatten {w : Nat} {bss : List (List UInt8)} (h : ∀ bs ∈ bss, bs.length = w) :
    bss.flatten.length = bss.length * w := by
  induction bss with
  | nil => simp
  | cons bs bss ih =>
    rw [List.flatten_cons, List.length_append, List.length_cons, h bs List.mem_cons_self,
      ih fun b hb => h b (List.mem_cons_of_mem _ hb)]
    ring

theorem chunks_eq_map_range (w n : Nat) (bs : List UInt8) :
    chunks w n bs = (List.range n).map fun i => (bs.drop (i * w)).take w := by
  induction n generalizing bs with
  | zero => rfl
  | succ n ih =>
    rw [chunks, ih, List.range_succ_eq_map, List.map_cons, List.map_map]
    refine congrArg₂ List.cons (by simp) (List.map_congr_left fun i _ => ?_)
    have : w + i * w = (i + 1) * w := by ring
    simp [List.drop_drop, this]

end LittleEndian
