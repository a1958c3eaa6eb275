import AmpcCommon.Base.Process
import AmpcCommon.Protocol.Share
import AmpcCommon.Wire.Ring48

/-!
# Sessions of three parties

The model of what the protocols of `ampc-actor-utils/src/protocol` run on: the correlated randomness of
`prf.rs` and the network session of `execution/session.rs`.

A protocol is a program of one party (`Proc`): it draws from its two random streams, sends messages to the
next and to the previous party, receives messages from them, and returns an outcome. The streams keep their
position when a call fails. The three parties run on the ring of `Network` with `p ↦ p + 1`, so every pair of
parties has a first-in first-out channel in both directions.

The generator of the streams is the `rand` crate; the model takes it as a parameter (`Rng`).
-/

namespace AmpcCommon.Protocol

/-- A random number generator: what `rng.gen` and `rng.try_fill` return at the unsigned integer type with `K`
bits, and the state after it. -/
class Rng (R : Type) where
  gen : (K : Nat) → R → BitVec K × R
  fill : (K len : Nat) → R → (Fin len → BitVec K) × R

/-- The streams of a party: the one it shares with the next party, and the one it shares with the previous
party. -/
structure Prf (R : Type) where
  myPrf : R
  prevPrf : R

/-- Draws from `my_prf`. -/
def Prf.mine {R α : Type} (draw : R → α × R) (prf : Prf R) : α × Prf R :=
  let (v, rng) := draw prf.myPrf
  (v, { prf with myPrf := rng })

/-- Draws from `prev_prf`. -/
def Prf.prev {R α : Type} (draw : R → α × R) (prf : Prf R) : α × Prf R :=
  let (v, rng) := draw prf.prevPrf
  (v, { prf with prevPrf := rng })

section Streams

variable {R : Type} [Rng R]

/-- `rng.gen::<T>()`; a `Ring48` is sampled from a `u64`. -/
def RingTy.gen : (t : RingTy) → R → BitVec t.bits × R
  | .ring48, rng =>
    let (word, rng) := Rng.gen 64 rng
    ((Wire.Ring48.sample word).bits, rng)
  | t, rng => Rng.gen t.bits rng

/-- `T::fill_vec_ring` -/
def RingTy.fillVecRing : (t : RingTy) → (len : Nat) → R → List (BitVec t.bits) × R
  | .ring48, len, rng =>
    let (v, rng) := Rng.fill 64 len rng
    (List.ofFn fun i => (Wire.Ring48.sample (v i)).bits, rng)
  | t, len, rng =>
    let (v, rng) := Rng.fill t.bits len rng
    (List.ofFn v, rng)

@[simp] theorem length_fillVecRing (t : RingTy) (len : Nat) (rng : R) :
    (t.fillVecRing len rng).1.length = len := by
  cases t <;> exact List.length_ofFn

/-- A number of draws of one element each. -/
def genMany (t : RingTy) : Nat → R → List (BitVec t.bits) × R
  | 0, rng => ([], rng)
  | n + 1, rng =>
    let (v, rng) := t.gen rng
    let (vs, rng) := genMany t n rng
    (v :: vs, rng)

@[simp] theorem length_genMany (t : RingTy) (n : Nat) (rng : R) : (genMany t n rng).1.length = n := by
  induction n generalizing rng with
  | zero => rfl
  | succ n ih => simp [genMany, ih]

namespace Prf

/-- `gen_rands` -/
def genRands (t : RingTy) (prf : Prf R) : (BitVec t.bits × BitVec t.bits) × Prf R :=
  let (a, prf) := prf.mine t.gen
  let (b, prf) := prf.prev t.gen
  ((a, b), prf)

/-- `gen_rands_mine` -/
def genRandsMine (t : RingTy) (len : Nat) (prf : Prf R) : List (BitVec t.bits) × Prf R :=
  prf.mine (t.fillVecRing len)

/-- `gen_rands_prev` -/
def genRandsPrev (t : RingTy) (len : Nat) (prf : Prf R) : List (BitVec t.bits) × Prf R :=
  prf.prev (t.fillVecRing len)

/-- `gen_rands_batch` -/
def genRandsBatch (t : RingTy) (len : Nat) (prf : Prf R) :
    (List (BitVec t.bits) × List (BitVec t.bits)) × Prf R :=
  let (mine, prf) := prf.genRandsMine t len
  let (prev, prf) := prf.genRandsPrev t len
  ((mine, prev), prf)

/-- `gen_zero_share` -/
def genZeroShare (t : RingTy) (prf : Prf R) : BitVec t.bits × Prf R :=
  let ((a, b), prf) := prf.genRands t
  (a - b, prf)

/-- `(0..n).map(|_| prf.gen_rands()).unzip()` -/
def genRandsMany (t : RingTy) : Nat → Prf R → (List (BitVec t.bits) × List (BitVec t.bits)) × Prf R
  | 0, prf => (([], []), prf)
  | n + 1, prf =>
    let ((a, b), prf) := prf.genRands t
    let ((as, bs), prf) := genRandsMany t n prf
    ((a :: as, b :: bs), prf)

end Prf

end Streams

/-! ## Messages -/

/-- The messages of the protocols: one ring element, or a vector of them, or the same with bits. -/
inductive RingMsg where
  | element (t : RingTy) (e : BitVec t.bits)
  | vec (t : RingTy) (v : List (BitVec t.bits))
  | bit (b : BitVec 1)
  | bits (v : List (BitVec 1))

/-- `T::into_vec` -/
def intoVec (t : RingTy) : RingMsg → Outcome (List (BitVec t.bits))
  | .element t' e =>
    if h : t' = t then .ok [h ▸ e]
    else .bail s!"Invalid conversion to Vec<RingElement<{t.name}>>"
  | .vec t' v =>
    if h : t' = t then .ok (h ▸ v)
    else .bail s!"Invalid conversion to Vec<RingElement<{t.name}>>"
  | _ => .bail s!"Invalid conversion to Vec<RingElement<{t.name}>>"

/-- `get_descriptor_byte` -/
def RingMsg.getDescriptorByte : RingMsg → Nat
  | .bit b => if b = 1 then 0x12 else 0x02
  | .element .u16 _ => 0x03
  | .element .u32 _ => 0x04
  | .element .u64 _ => 0x05
  | .vec .u16 _ => 0x06
  | .vec .u32 _ => 0x07
  | .vec .u64 _ => 0x08
  | .element .ring48 _ => 0x0D
  | .vec .ring48 _ => 0x0E
  | .bits _ => 0x0F

/-- `unpack_bits`, with the text `open_bin` gives its error. -/
def unpackBits : RingMsg → Outcome (List (BitVec 1))
  | .bits v => .ok v
  | .bit b => .ok [b]
  | m => .bail (s!"Wrong value type received in open_bin operation: " ++
      s!"expected VecRingBit or RingElementBit, got {m.getDescriptorByte}")

/-- The message of `send_ring_vec`: a vector with one element is sent as this element. -/
def ringVecMsg (t : RingTy) : List (BitVec t.bits) → RingMsg
  | [e] => .element t e
  | v => .vec t v

@[simp] theorem intoVec_vec (t : RingTy) (v : List (BitVec t.bits)) : intoVec t (.vec t v) = .ok v := by
  simp [intoVec]

@[simp] theorem intoVec_ringVecMsg (t : RingTy) (v : List (BitVec t.bits)) :
    intoVec t (ringVecMsg t v) = .ok v := by
  unfold ringVecMsg
  split <;> simp [intoVec]

/-! ## Programs of a party -/

/-- A program of one party. -/
def Proc (R α : Type) := Prf R → Process RingMsg (Outcome α × Prf R)

namespace Proc

variable {R α β : Type}

/-- Go on after an outcome; a failure ends the program. -/
def andThen (f : α → Proc R β) : Outcome α × Prf R → Process RingMsg (Outcome β × Prf R)
  | (.ok a, prf) => f a prf
  | (.error e, prf) => .pure (.error e, prf)

instance : Monad (Proc R) where
  pure a := fun prf => .pure (.ok a, prf)
  bind x f := fun prf => (x prf).bind (andThen f)

/-- A local computation that can fail. -/
def lift (o : Outcome α) : Proc R α := fun prf => .pure (o, prf)

/-- Draws from the streams. -/
def draw (f : Prf R → α × Prf R) : Proc R α := fun prf =>
  let (a, prf) := f prf
  .pure (.ok a, prf)

/-- A local loop that does not end. -/
def diverge : Proc R α := fun _ => .spin

/-- Send a message to a neighbour. -/
def send (d : Dir) (m : RingMsg) : Proc R Unit := fun prf => .send d m (.pure (.ok (), prf))

/-- Receive a message from a neighbour. -/
def receive (d : Dir) : Proc R RingMsg := fun prf => .recv d fun m => .pure (.ok m, prf)

/-- `send_ring_vec_next` -/
def sendRingVecNext (t : RingTy) (data : List (BitVec t.bits)) : Proc R Unit :=
  send .next (ringVecMsg t data)

/-- `send_ring_vec_prev` -/
def sendRingVecPrev (t : RingTy) (data : List (BitVec t.bits)) : Proc R Unit :=
  send .prev (ringVecMsg t data)

/-- `receive_ring_vec_next` and `receive_ring_vec_prev` -/
def receiveRingVec (t : RingTy) (d : Dir) : Proc R (List (BitVec t.bits)) := do
  let m ← receive d
  lift (intoVec t m)

theorem bind_apply (x : Proc R α) (f : α → Proc R β) (prf : Prf R) :
    (x >>= f) prf = (x prf).bind (andThen f) := rfl

@[simp] theorem lift_ok (a : α) : (lift (.ok a) : Proc R α) = pure a := rfl

end Proc

/-- What a party knows of its session: its role, and the identifier all parties share. -/
structure Session where
  ownRole : Party
  sessionId : BitVec 32

/-- The role of a party in the protocols whose roles rotate with the session. -/
def Session.roleIndex (s : Session) : Nat := (s.ownRole.val + s.sessionId.toNat) % 3

/-- The next party of the ring. -/
def nextParty : Equiv.Perm Party := Equiv.addRight 1

@[simp] theorem nextParty_apply (p : Party) : nextParty p = p + 1 := rfl

@[simp] theorem nextParty_symm_apply (p : Party) : nextParty.symm p = p - 1 := by
  rw [Equiv.symm_apply_eq]
  simp

/-- The streams are in lockstep: every party and the next one hold the same state of the stream they
share. -/
def Lockstep {R : Type} (σ : Party → Prf R) : Prop := ∀ p, (σ p).myPrf = (σ (p + 1)).prevPrf

end AmpcCommon.Protocol
