import AmpcCommon.Protocol.Ops
import AmpcCommon.Protocol.Shuffle

/-!
# Calls of the protocol library

What the three parties of a session do with the library: they make the same calls, one after the other, each
with its own data. A party goes on with its next call as soon as it has returned from one, whatever the outcome
is, so that the parties can be in different calls at a time.
-/

namespace AmpcCommon.Protocol

/-- A call that all parties make, with the data of each of them. -/
inductive JointCall where
  | galoisRingToRep3 (items : Party → List (BitVec 16))
  | andMany (t : RingTy) (a b : Party → List (Share t.bits))
  | andManyGrouped (t : RingTy) (groups : Party → List (List (Share t.bits) × List (Share t.bits)))
  | transposedPackAnd (t : RingTy) (x1 x2 : Party → List (List (Share t.bits)))
  | twoWaySplit (t : RingTy) (input : Party → List (Share t.bits))
  | extractMsbBatch (t : RingTy) (x : Party → List (Share t.bits))
  | bitInject (t : RingTy) (input : Party → List (Share 1))
  | lift (shares : Party → List (Share 16))
  | liftToRing48 (shares : Party → List (Share 16))
  | reshareProducts (t : RingTy) (n : Nat) (expr : Party → Nat → BitVec t.bits)
  | conditionallySelectDistance (t : RingTy) (distances : Party → List (DistanceShare t.bits × DistanceShare t.bits))
      (controlBits : Party → List (Share t.bits))
  | randomShuffleBatch (t : RingTy) (distances : Party → List (List (IdDistance t.bits)))
  | genZeroShare (t : RingTy)

/-- All parties have the same value. -/
def Same {β : Type} (f : Party → β) : Prop := ∀ p, f p = f 0

namespace JointCall

/-- The lengths of the data, which are public, are the same at all parties. -/
def SamePublic : JointCall → Prop
  | .galoisRingToRep3 items => Same fun p => (items p).length
  | .andMany _ a b => (Same fun p => (a p).length) ∧ Same fun p => (b p).length
  | .andManyGrouped _ groups => Same fun p => (groups p).map fun g => (g.1.length, g.2.length)
  | .transposedPackAnd _ x1 x2 =>
    (Same fun p => (x1 p).map List.length) ∧ Same fun p => (x2 p).map List.length
  | .twoWaySplit _ input => Same fun p => (input p).length
  | .extractMsbBatch _ x => Same fun p => (x p).length
  | .bitInject _ input => Same fun p => (input p).length
  | .lift shares => Same fun p => (shares p).length
  | .liftToRing48 shares => Same fun p => (shares p).length
  | .reshareProducts .. => True
  | .conditionallySelectDistance _ distances controlBits =>
    (Same fun p => (distances p).length) ∧ Same fun p => (controlBits p).length
  | .randomShuffleBatch _ distances => Same fun p => (distances p).map List.length
  | .genZeroShare _ => True

variable {R : Type} [Rng R]

/-- The program of the party with the session `s`; its result is dropped. -/
def prog (overflowChecks : Bool) (fuel : Nat) (s : Session) : JointCall → Proc R Unit
  | .galoisRingToRep3 items => discard (Protocol.galoisRingToRep3 (items s.ownRole))
  | .andMany t a b => discard (Protocol.andMany t (a s.ownRole) (b s.ownRole))
  | .andManyGrouped t groups => discard (Protocol.andManyGrouped t (groups s.ownRole))
  | .transposedPackAnd t x1 x2 => discard (Protocol.transposedPackAnd t (x1 s.ownRole) (x2 s.ownRole))
  | .twoWaySplit t input => discard (Protocol.twoWaySplit t s (input s.ownRole))
  | .extractMsbBatch t x => discard (Protocol.extractMsbBatch t s (x s.ownRole))
  | .bitInject t input => discard (Protocol.bitInject t s (input s.ownRole))
  | .lift shares => discard (Protocol.lift s (shares s.ownRole))
  | .liftToRing48 shares => discard (Protocol.liftToRing48 s (shares s.ownRole))
  | .reshareProducts t n expr => discard (Protocol.reshareProducts t n (expr s.ownRole))
  | .conditionallySelectDistance t distances controlBits =>
    discard (Protocol.conditionallySelectDistance t (distances s.ownRole) (controlBits s.ownRole))
  | .randomShuffleBatch t distances =>
    discard (Protocol.randomShuffleBatch t overflowChecks fuel s (distances s.ownRole))
  | .genZeroShare t => discard (Proc.draw (Prf.genZeroShare t))

/-- The shuffle is called with batches, if they have the same length, that are not empty and shorter than
`2 ^ 32`, and in a session whose roles do not wrap. -/
def ShuffleFits (sid : BitVec 32) : JointCall → Prop
  | .randomShuffleBatch _ distances =>
    ∀ size, distances 0 ≠ [] → (∀ batch ∈ distances 0, batch.length = size) →
      sid.toNat + 2 < 2 ^ 32 ∧ 0 < size ∧ size < 2 ^ 32
  | _ => True

end JointCall

/-- A party makes its calls, one after the other, and returns its streams. -/
def runCalls {R : Type} [Rng R] (overflowChecks : Bool) (fuel : Nat) (s : Session) :
    List JointCall → Prf R → Process RingMsg (Prf R)
  | [], prf => .pure prf
  | call :: calls, prf =>
    (call.prog overflowChecks fuel s prf).bind fun (_, prf) => runCalls overflowChecks fuel s calls prf

end AmpcCommon.Protocol
