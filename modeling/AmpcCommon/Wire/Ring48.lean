import AmpcCommon.Wire.NetworkValue
import Mathlib.Data.BitVec

/-!
# The 48-bit ring

The model of `shares/ring48.rs`: a ring element of 48 bits lies in the low bits of a `u64`. Some operations mask their
result, the others rely on operands whose upper bits are clear, and two more places write the word: the random
generation and the parser of the wire format.

The shifts and the negation of `Signed48` are those of a build without overflow checks: a shift amount counts modulo 64,
and the negation of `i64::MIN` wraps.
-/

namespace AmpcCommon.Wire

namespace Ring48

/-- `MASK_48` -/
def mask : BitVec 64 := (1#64 <<< 48) - 1#64

/-- The upper sixteen bits of the word are clear: the value is below `2^48`. -/
def Canonical (x : Ring48) : Prop := x.val.toNat < 2 ^ 48

instance (x : Ring48) : Decidable x.Canonical := inferInstanceAs (Decidable (_ < _))

/-- The element of the ring of 48 bits that a word stands for. -/
def bits (x : Ring48) : BitVec 48 := x.val.setWidth 48

/-- `masked` -/
def masked (v : BitVec 64) : Ring48 := ⟨v &&& mask⟩

/-! ## Conversions -/

/-- The conversion of a smaller unsigned integer, `v as u64`. -/
def ofUnsigned {w : Nat} (v : BitVec w) : Ring48 := ⟨v.setWidth 64⟩

/-- `From<bool>` -/
def fromBool (b : Bool) : Ring48 := ofUnsigned (BitVec.ofBool b)

/-- `From<u8>` -/
def fromU8 (v : BitVec 8) : Ring48 := ofUnsigned v

/-- `From<u16>` -/
def fromU16 (v : BitVec 16) : Ring48 := ofUnsigned v

/-- `From<u32>` -/
def fromU32 (v : BitVec 32) : Ring48 := ofUnsigned v

def zero : Ring48 := ⟨0⟩

def one : Ring48 := ⟨1⟩

/-! ## Arithmetic -/

instance : Add Ring48 := ⟨fun x rhs => ⟨(x.val + rhs.val) &&& mask⟩⟩

instance : Sub Ring48 := ⟨fun x rhs => ⟨(x.val - rhs.val) &&& mask⟩⟩

instance : Mul Ring48 := ⟨fun x rhs => ⟨(x.val * rhs.val) &&& mask⟩⟩

/-- `wrapping_add`, and `wrapping_add_assign` of `IntRing2k`, as are the next ones -/
def wrappingAdd (x rhs : Ring48) : Ring48 := ⟨(x.val + rhs.val) &&& mask⟩

def wrappingSub (x rhs : Ring48) : Ring48 := ⟨(x.val - rhs.val) &&& mask⟩

def wrappingMul (x rhs : Ring48) : Ring48 := ⟨(x.val * rhs.val) &&& mask⟩

def wrappingNeg (x : Ring48) : Ring48 := ⟨(-x.val) &&& mask⟩

/-- `wrapping_shl`, with a `u32` -/
def wrappingShl (x : Ring48) (rhs : BitVec 32) : Ring48 := ⟨(x.val <<< (rhs.toNat % 64)) &&& mask⟩

/-- `wrapping_shr`, with a `u32`. No mask is needed: shifting right can only reduce bits. -/
def wrappingShr (x : Ring48) (rhs : BitVec 32) : Ring48 := ⟨x.val >>> (rhs.toNat % 64)⟩

/-- `Shl<usize>` -/
def shl (x : Ring48) (rhs : Nat) : Ring48 := ⟨(x.val <<< (rhs % 64)) &&& mask⟩

/-- `Shr<usize>` -/
def shr (x : Ring48) (rhs : Nat) : Ring48 := ⟨x.val >>> (rhs % 64)⟩

/-- `Rem` -/
def rem (x rhs : Ring48) : Outcome Ring48 :=
  if rhs.val = 0 then .panicked "attempt to calculate the remainder with a divisor of zero"
  else .ok ⟨x.val % rhs.val⟩

/-! ## Bitwise operations -/

def not (x : Ring48) : Ring48 := ⟨(~~~x.val) &&& mask⟩

/-- `bitxor` and `bitxor_assign`, as are the next ones -/
def bitxor (x rhs : Ring48) : Ring48 := ⟨x.val ^^^ rhs.val⟩

def bitand (x rhs : Ring48) : Ring48 := ⟨x.val &&& rhs.val⟩

def bitor (x rhs : Ring48) : Ring48 := ⟨x.val ||| rhs.val⟩

end Ring48

/-- `Signed48`: the signed interpretation of a 48-bit value, an `i64`. -/
structure Signed48 where
  val : BitVec 64
  deriving Repr, DecidableEq

namespace Signed48

def neg (x : Signed48) : Signed48 := ⟨-x.val⟩

/-- `From<bool>` -/
def fromBool (b : Bool) : Signed48 := ⟨(BitVec.ofBool b).setWidth 64⟩

/-- `AsPrimitive<Ring48>` -/
def asRing48 (x : Signed48) : Ring48 := ⟨x.val &&& Ring48.mask⟩

end Signed48

namespace Ring48

/-! ## Random generation -/

/-- `sample` of `Distribution<Ring48>`, with the word of the generator. -/
def sample (word : BitVec 64) : Ring48 := ⟨word &&& mask⟩

/-- `fill_vec_ring`, with the outcome of `try_fill` on the slice as words, and the words it left there. -/
def fillVecRing (tryFill : Outcome Unit × List (BitVec 64)) : Outcome Unit × List Ring48 :=
  let (res, raw) := tryFill
  let slice := raw.map Ring48.mk
  match res with
  | .ok () => (.ok (), slice.map fun elem => ⟨elem.val &&& mask⟩)
  -- the `?` leaves before the elements are masked
  | .error e => (.error e, slice)

/-- `Rng::fill` on a vector of ring elements, as the correlated randomness calls it. -/
def fill (tryFill : Outcome Unit × List (BitVec 64)) : Outcome (List Ring48) :=
  match fillVecRing tryFill with
  | (.ok (), slice) => .ok slice
  | (.error _, _) => .panicked "Rng::fill failed"

end Ring48

namespace NetworkValue

mutual

/-- The elements of `Ring48` in a value. -/
def ring48s : NetworkValue → List Ring48
  | .ringElement48 x => [x]
  | .vecRing48 v => v
  | .networkVec v => ring48sAll v
  | _ => []

def ring48sAll : List NetworkValue → List Ring48
  | [] => []
  | v :: vs => ring48s v ++ ring48sAll vs

end

end NetworkValue

/-! ## Programs

What a party can do with the values it has: compute with them, draw new ones, and receive some. -/

namespace Ring48

/-- A value that is made without another one. -/
inductive Source where
  | fromBool (b : Bool)
  | fromU8 (v : BitVec 8)
  | fromU16 (v : BitVec 16)
  | fromU32 (v : BitVec 32)
  | zero
  | one
  | asRing48 (x : Signed48)
  | masked (v : BitVec 64)
  | sample (word : BitVec 64)

def Source.value : Source → Ring48
  | .fromBool b => Ring48.fromBool b
  | .fromU8 v => Ring48.fromU8 v
  | .fromU16 v => Ring48.fromU16 v
  | .fromU32 v => Ring48.fromU32 v
  | .zero => Ring48.zero
  | .one => Ring48.one
  | .asRing48 x => x.asRing48
  | .masked v => Ring48.masked v
  | .sample word => Ring48.sample word

/-- The operations with one operand. -/
inductive Unary where
  | wrappingNeg
  | not
  | wrappingShl (rhs : BitVec 32)
  | wrappingShr (rhs : BitVec 32)
  | shl (rhs : Nat)
  | shr (rhs : Nat)

def Unary.apply : Unary → Ring48 → Ring48
  | .wrappingNeg, x => x.wrappingNeg
  | .not, x => x.not
  | .wrappingShl rhs, x => x.wrappingShl rhs
  | .wrappingShr rhs, x => x.wrappingShr rhs
  | .shl rhs, x => x.shl rhs
  | .shr rhs, x => x.shr rhs

/-- The operations with two operands. -/
inductive Binary where
  | add | sub | mul | wrappingAdd | wrappingSub | wrappingMul | rem | bitxor | bitand | bitor

def Binary.apply : Binary → Ring48 → Ring48 → Outcome Ring48
  | .add, x, rhs => .ok (x + rhs)
  | .sub, x, rhs => .ok (x - rhs)
  | .mul, x, rhs => .ok (x * rhs)
  | .wrappingAdd, x, rhs => .ok (x.wrappingAdd rhs)
  | .wrappingSub, x, rhs => .ok (x.wrappingSub rhs)
  | .wrappingMul, x, rhs => .ok (x.wrappingMul rhs)
  | .rem, x, rhs => x.rem rhs
  | .bitxor, x, rhs => .ok (x.bitxor rhs)
  | .bitand, x, rhs => .ok (x.bitand rhs)
  | .bitor, x, rhs => .ok (x.bitor rhs)

/-- One step of a program: the operands are numbers of values it already has. -/
inductive Op where
  | source (s : Source)
  | unary (f : Unary) (i : Nat)
  | binary (f : Binary) (i j : Nat)
  | fill (tryFill : Outcome Unit × List (BitVec 64))
  | deserialize (serialized : Bytes)

/-- The values a step gives; a step that fails gives none. -/
def Op.yields (regs : List Ring48) : Op → List Ring48
  | .source s => [s.value]
  | .unary f i => (regs[i]?.map f.apply).toList
  | .binary f i j =>
    match regs[i]?, regs[j]? with
    | some x, some rhs => (f.apply x rhs).toOption.toList
    | _, _ => []
  | .fill tryFill => (Ring48.fill tryFill).toOption.getD []
  | .deserialize serialized => (NetworkValue.deserialize serialized).toOption.elim [] NetworkValue.ring48s

/-- All values a program has after some steps. -/
def run (regs : List Ring48) (ops : List Op) : List Ring48 :=
  ops.foldl (fun regs op => regs ++ op.yields regs) regs

end Ring48

end AmpcCommon.Wire
