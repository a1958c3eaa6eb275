import AmpcCommon.Base.Counts
import AmpcCommon.Base.Outcome
import Mathlib.Data.BitVec
import Mathlib.Data.Fin.VecNotation
import Mathlib.Tactic.FinCases

/-!
# Replicated shares

The model of the share types of `ampc-secret-sharing/src/shares`: a replicated share holds two of the three
components of a secret (`share.rs`), and vectors of ring elements and of shares are combined elementwise
(`ring_impl.rs`, `vecshare.rs`). A ring element with `K` bits is a bit vector; its arithmetic wraps.

The abstract view is `Rep3`: all three components of a secret, of which every party sees two.
-/

namespace AmpcCommon.Protocol

/-- The ring types that are sent over the network (`NetworkInt`). -/
inductive RingTy where
  | u16
  | u32
  | ring48
  | u64
  deriving Repr, DecidableEq

/-- The number of bits `K` of a ring type. -/
def RingTy.bits : RingTy → Nat
  | .u16 => 16
  | .u32 => 32
  | .ring48 => 48
  | .u64 => 64

/-- The name the type has in the source. -/
def RingTy.name : RingTy → String
  | .u16 => "u16"
  | .u32 => "u32"
  | .ring48 => "Ring48"
  | .u64 => "u64"

/-- The replicated share of a party: `a` is its own component, `b` the one of the previous party. -/
@[ext] structure Share (K : Nat) where
  a : BitVec K
  b : BitVec K
  deriving Repr, DecidableEq

namespace Share

variable {K : Nat}

instance : Zero (Share K) := ⟨⟨0, 0⟩⟩

instance : Inhabited (Share K) := ⟨0⟩

instance : Add (Share K) := ⟨fun x y => ⟨x.a + y.a, x.b + y.b⟩⟩

instance : Sub (Share K) := ⟨fun x y => ⟨x.a - y.a, x.b - y.b⟩⟩

instance : XorOp (Share K) := ⟨fun x y => ⟨x.a ^^^ y.a, x.b ^^^ y.b⟩⟩

/-- The local part of the AND of two shares (`&` of two `&Share`). -/
def and (x y : Share K) : BitVec K := (x.a &&& y.a) ^^^ (x.b &&& y.a) ^^^ (x.a &&& y.b)

/-- `&` with a public word. -/
def andConst (x : Share K) (m : BitVec K) : Share K := ⟨x.a &&& m, x.b &&& m⟩

/-- `>>` -/
def shr (x : Share K) (n : Nat) : Share K := ⟨x.a >>> n, x.b >>> n⟩

/-- `<<` -/
def shl (x : Share K) (n : Nat) : Share K := ⟨x.a <<< n, x.b <<< n⟩

/-- `add_assign_const_role`: a constant is added to the first component of the secret, by the two parties that
hold it. -/
def addAssignConstRole (x : Share K) (other : BitVec K) : Fin 3 → Share K
  | 0 => { x with a := x.a + other }
  | 1 => { x with b := x.b + other }
  | 2 => x

@[simp] theorem zero_a : (0 : Share K).a = 0 := rfl

@[simp] theorem zero_b : (0 : Share K).b = 0 := rfl

@[simp] theorem default_eq : (default : Share K) = 0 := rfl

@[simp] theorem add_a (x y : Share K) : (x + y).a = x.a + y.a := rfl

@[simp] theorem add_b (x y : Share K) : (x + y).b = x.b + y.b := rfl

@[simp] theorem sub_a (x y : Share K) : (x - y).a = x.a - y.a := rfl

@[simp] theorem sub_b (x y : Share K) : (x - y).b = x.b - y.b := rfl

@[simp] theorem xor_a (x y : Share K) : (x ^^^ y).a = x.a ^^^ y.a := rfl

@[simp] theorem xor_b (x y : Share K) : (x ^^^ y).b = x.b ^^^ y.b := rfl

end Share

/-! ## Vectors of ring elements -/

section VecRingElement

variable {K : Nat}

/-- An operator on vectors of ring elements: it fails when the lengths differ. -/
def vecZip (msg : String) (op : BitVec K → BitVec K → BitVec K) (x y : List (BitVec K)) :
    Outcome (List (BitVec K)) :=
  if x.length ≠ y.length then .bail msg else .ok (List.zipWith op x y)

/-- `VecRingElement::add` -/
def vecAdd : List (BitVec K) → List (BitVec K) → Outcome (List (BitVec K)) :=
  vecZip "Adding vectors of different lengths" (· + ·)

/-- `VecRingElement::bitxor`; the message is that of the addition. -/
def vecXor : List (BitVec K) → List (BitVec K) → Outcome (List (BitVec K)) :=
  vecZip "Adding vectors of different lengths" (· ^^^ ·)

/-- `VecRingElement::sub` -/
def vecSub : List (BitVec K) → List (BitVec K) → Outcome (List (BitVec K)) :=
  vecZip "Subtracting vectors of different lengths" (· - ·)

/-- `VecRingElement::mul` -/
def vecMul : List (BitVec K) → List (BitVec K) → Outcome (List (BitVec K)) :=
  vecZip "Multiplying vectors of different lengths" (· * ·)

theorem vecZip_eq_ok {msg : String} {op : BitVec K → BitVec K → BitVec K} {x y : List (BitVec K)}
    (h : x.length = y.length) : vecZip msg op x y = .ok (List.zipWith op x y) := by
  unfold vecZip
  rw [if_neg (not_not.mpr h)]

theorem vecZip_eq_bail {msg : String} {op : BitVec K → BitVec K → BitVec K} {x y : List (BitVec K)}
    (h : x.length ≠ y.length) : vecZip msg op x y = .bail msg := by
  unfold vecZip
  rw [if_pos h]

/-- `get_bit_as_bit` -/
def getBitAsBit (x : BitVec K) (index : Nat) : BitVec 1 := BitVec.ofBool (x.getLsbD index)

end VecRingElement

/-! ## Vectors of shares -/

section VecShare

variable {K : Nat}

/-- `VecShare::from_ab` and `from_iter_ab` -/
def fromAb (a b : List (BitVec K)) : List (Share K) := List.zipWith Share.mk a b

/-- `^` of two vectors of shares. -/
def vecShareXor (x y : List (Share K)) : List (Share K) := List.zipWith (· ^^^ ·) x y

/-- `-=` of two vectors of shares: what the second one does not reach is left as it is. -/
def vecShareSubAssign : List (Share K) → List (Share K) → List (Share K)
  | x :: xs, y :: ys => (x - y) :: vecShareSubAssign xs ys
  | xs, [] => xs
  | [], _ => []

/-- `^=` of two vectors of shares: what the second one does not reach is left as it is. -/
def vecShareXorAssign : List (Share K) → List (Share K) → List (Share K)
  | x :: xs, y :: ys => (x ^^^ y) :: vecShareXorAssign xs ys
  | xs, [] => xs
  | [], _ => []

/-- The bits of a share, the least significant one first. -/
def Share.bits (x : Share K) : List (Share 1) :=
  (List.range K).map fun i => ⟨getBitAsBit x.a i, getBitAsBit x.b i⟩

/-- `convert_to_bits` -/
def convertToBits (x : List (Share K)) : List (Share 1) := x.flatMap Share.bits

/-- `chunks_exact`: the part that does not fill a chunk is left out. -/
def chunksExact {α : Type} (size : Nat) (l : List α) : List (List α) :=
  (List.range (l.length / size)).map fun j => (l.drop (size * j)).take size

/-- `chunks`: the last chunk may be shorter. -/
def chunks {α : Type} (size : Nat) (l : List α) : List (List α) :=
  (List.range ((l.length + size - 1) / size)).map fun j => (l.drop (size * j)).take size

/-- A share of a distance (`DistanceShare`). -/
structure DistanceShare (K : Nat) where
  codeDot : Share K
  maskDot : Share K
  deriving Repr, DecidableEq

/-- A distance with the share of its identifier (`IdDistance`). -/
abbrev IdDistance (K : Nat) := Share K × DistanceShare K

/-- Group shares by three (`tuples` of `itertools`); an incomplete group is left out. -/
def tuples3 : List (Share K) → List (IdDistance K)
  | id :: codeDot :: maskDot :: rest => (id, ⟨codeDot, maskDot⟩) :: tuples3 rest
  | _ => []

/-- Group shares by two (`tuples` of `itertools`); an incomplete group is left out. -/
def tuples2 : List (Share K) → List (DistanceShare K)
  | codeDot :: maskDot :: rest => ⟨codeDot, maskDot⟩ :: tuples2 rest
  | _ => []

/-- `reconstruct_id_distance_vector` -/
def reconstructIdDistanceVector (a b : List (BitVec K)) : List (IdDistance K) := tuples3 (fromAb a b)

@[simp] theorem length_fromAb (a b : List (BitVec K)) : (fromAb a b).length = min a.length b.length :=
  List.length_zipWith

@[simp] theorem length_vecShareXor (x y : List (Share K)) :
    (vecShareXor x y).length = min x.length y.length :=
  List.length_zipWith

theorem vecShareXorAssign_eq {x y : List (Share K)} (h : x.length = y.length) :
    vecShareXorAssign x y = vecShareXor x y := by
  fun_induction vecShareXorAssign x y with
  | case1 x xs y ys ih =>
    rw [ih (by simpa using h)]
    rfl
  | case2 xs =>
    cases List.length_eq_zero_iff.mp h
    rfl
  | case3 ys => rfl

@[simp] theorem length_vecShareXorAssign (x y : List (Share K)) :
    (vecShareXorAssign x y).length = x.length := by
  fun_induction vecShareXorAssign x y <;> simp_all

@[simp] theorem length_vecShareSubAssign (x y : List (Share K)) :
    (vecShareSubAssign x y).length = x.length := by
  fun_induction vecShareSubAssign x y <;> simp_all

@[simp] theorem length_bits (x : Share K) : x.bits.length = K := by
  simp [Share.bits]

@[simp] theorem length_convertToBits (x : List (Share K)) :
    (convertToBits x).length = x.length * K := by
  simp [convertToBits, List.length_flatMap]

end VecShare

/-! ## The three components of a secret -/

/-- The index of a party. -/
abbrev Party := Fin 3

/-- The three components of a shared secret. -/
abbrev Rep3 (K : Nat) := Party → BitVec K

namespace Rep3

variable {K : Nat}

/-- What the party `p` holds of a shared secret. -/
def view (p : Party) (x : Rep3 K) : Share K := ⟨x p, x (p - 1)⟩

/-- The secret of an additive sharing. -/
def sum (x : Rep3 K) : BitVec K := x 0 + x 1 + x 2

/-- The secret of a binary sharing. -/
def xor (x : Rep3 K) : BitVec K := x 0 ^^^ x 1 ^^^ x 2

/-- The secrets do not depend on which party is the first. -/
theorem sum_rotate (x : Rep3 K) (s : Party) : (sum fun p => x (p + s)) = sum x := by
  unfold sum
  fin_cases s
  · simp
  · show x 1 + x 2 + x 0 = x 0 + x 1 + x 2
    ac_rfl
  · show x 2 + x 0 + x 1 = x 0 + x 1 + x 2
    ac_rfl

theorem xor_rotate (x : Rep3 K) (s : Party) : (xor fun p => x (p + s)) = xor x := by
  unfold xor
  fin_cases s
  · simp
  · show x 1 ^^^ x 2 ^^^ x 0 = x 0 ^^^ x 1 ^^^ x 2
    ac_rfl
  · show x 2 ^^^ x 0 ^^^ x 1 = x 0 ^^^ x 1 ^^^ x 2
    ac_rfl

end Rep3

end AmpcCommon.Protocol
