import AmpcCommon.Protocol.Binary

/-!
# The other builds of the two-number adder

The model of the variants of `binary_add_2_get_msb` (`ampc-actor-utils/src/protocol/binary.rs`). The feature
`ripple_carry_adder` selects the ripple-carry adder (`binaryAdd2GetMsbRipple`) in place of the parallel prefix adder.
A comment inside the parallel prefix adder states an invariant of its loop; `binaryAdd2GetMsbChecked` is this adder
with the invariant as an assertion at the head of the loop.
-/

namespace AmpcCommon.Protocol

variable {R : Type} [Rng R] (t : RingTy)

/-- `binary_add_2_get_msb` (ripple-carry adder) -/
def binaryAdd2GetMsbRipple (x1 x2 : List (List (Share t.bits))) : Proc R (List (Share t.bits)) :=
  if x1.length ≠ x2.length then
    Proc.lift (.bail s!"Inputs have different length {x1.length} {x2.length}")
  else
    match x1.getLast?, x2.getLast? with
    | some aMsb, some bMsb =>
      match x1.dropLast, x2.dropLast with
      | a0 :: a, b0 :: b => do
        let carry ← andMany t a0 b0
        let carry ← carryLoop t a b carry
        return vecShareXor (vecShareXor aMsb bMsb) carry
      -- `a.len() - 1` and `a[0]` with one plane only
      | _, _ => Proc.lift (.panicked "index out of bounds")
    | _, _ => Proc.lift (.bail "Not enough elements")

/-- The loop of `binary_add_2_get_msb` (parallel prefix adder), with the assertion
`temp_g.len() - 1 = temp_p.len()` before every test of the loop condition. -/
def prefixLoopChecked : Nat → List (List (Share t.bits)) → List (List (Share t.bits)) →
    Proc R (List (List (Share t.bits)))
  | 0, _, _ => Proc.diverge
  | fuel + 1, tempP, tempG =>
    if tempP.length + 1 ≠ tempG.length then Proc.lift (.panicked "assertion failed")
    else if tempG.length = 1 then pure tempG
    else do
      let (tempP, tempG) ← prefixLoopRound t tempP tempG
      prefixLoopChecked fuel tempP tempG

/-- `binary_add_2_get_msb` (parallel prefix adder) with the assertion in its loop. -/
def binaryAdd2GetMsbChecked (x1 x2 : List (List (Share t.bits))) : Proc R (List (Share t.bits)) :=
  prefixAdder t (prefixLoopChecked t) x1 x2

end AmpcCommon.Protocol
