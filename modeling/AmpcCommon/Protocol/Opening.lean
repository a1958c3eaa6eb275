import AmpcCommon.Protocol.Binary

/-!
# Opening ring elements

The model of the openings of `ampc-actor-utils/src/protocol/ops.rs`, and of the subtraction of a public element.
-/

namespace AmpcCommon.Protocol

/-- `map_err`, with the text that stands before the message. -/
def errorIn {α : Type} (text : String) : Outcome α → Outcome α
  | .error (.error msg) => .bail (text ++ msg)
  | o => o

/-- `sub_pub` -/
def subPub {K : Nat} (s : Session) (share : Share K) (rhs : BitVec K) : Share K :=
  match s.ownRole with
  | 0 => { share with a := share.a - rhs }
  | 1 => { share with b := share.b - rhs }
  | 2 => share

variable {R : Type} (t : RingTy)

/-- The message of an opening is received and read. -/
def receiveOpening (d : Dir) : Proc R (List (BitVec t.bits)) := do
  let m ← Proc.receive d
  Proc.lift (errorIn "Error in receiving in open operation: " (intoVec t m))

/-- `open_ring` -/
def openRing (shares : List (Share t.bits)) : Proc R (List (BitVec t.bits)) := do
  Proc.sendRingVecNext t (shares.map Share.b)
  let c ← receiveOpening t .prev
  return List.zipWith (fun s c => s.a + s.b + c) shares c

/-- `open_ring_element_broadcast` -/
def openRingElementBroadcast (shares : List (BitVec t.bits)) : Proc R (List (BitVec t.bits)) := do
  Proc.sendRingVecNext t shares
  Proc.sendRingVecPrev t shares
  let b ← receiveOpening t .prev
  let c ← receiveOpening t .next
  return List.zipWith (· + ·) (List.zipWith (· + ·) shares b) c

end AmpcCommon.Protocol
