import AmpcCommon.Base.Embedding
import AmpcCommon.Protocol.Calls
import AmpcCommon.Wire.NetworkValue

/-!
# Setting up a session

The model of `setup_replicated_prf` and `setup_shared_seed` of `ampc-actor-utils/src/protocol/ops.rs`, and of the
sessions that `make_sessions` of `network/mpc/handle/network_handle.rs` hands out: a session is set up and then used
over the same channels. The generator that is seeded, with the expansion of the seed, is a parameter.
-/

namespace AmpcCommon.Protocol

open Wire

/-- What the protocols use of the generator when it is made. -/
class SeedableRng (R : Type) extends Rng R where
  /-- `PrfRng::from_seed(expand_seed(seed))` -/
  fromSeed : PrfKey → R

/-- `Prf::new` -/
def Prf.new {R : Type} [SeedableRng R] (myKey prevKey : PrfKey) : Prf R where
  myPrf := SeedableRng.fromSeed myKey
  prevPrf := SeedableRng.fromSeed prevKey

/-- The messages of a session: seeds, and those of the protocols. -/
inductive SessionMsg where
  | prfKey (key : PrfKey)
  | ring (m : RingMsg)

/-- The message of a protocol. -/
def SessionMsg.toRing : SessionMsg → Option RingMsg
  | .prfKey _ => none
  | .ring m => some m

/-- The seed in a message that was received. -/
def seedOf : SessionMsg → Outcome PrfKey
  | .prfKey seed => .ok seed
  | .ring _ => .bail "Could not deserialize PrfKey"

/-- `setup_replicated_prf` -/
def setupReplicatedPrf {R : Type} [SeedableRng R] (mySeed : PrfKey) : Process SessionMsg (Outcome (Prf R)) :=
  .send .next (.prfKey mySeed) (.recv .prev fun m => .pure (do
    let otherSeed ← seedOf m
    return Prf.new mySeed otherSeed))

/-- `std::array::from_fn(|i| my_seed[i] ^ prev_seed[i] ^ next_seed[i])` -/
def xorSeeds (mySeed prevSeed nextSeed : PrfKey) : PrfKey where
  bytes := List.zipWith (· ^^^ ·) (List.zipWith (· ^^^ ·) mySeed.bytes prevSeed.bytes) nextSeed.bytes
  size_eq := by simp [mySeed.size_eq, prevSeed.size_eq, nextSeed.size_eq]

/-- `setup_shared_seed` -/
def setupSharedSeed (mySeed : PrfKey) : Process SessionMsg (Outcome PrfKey) :=
  .send .next (.prfKey mySeed) (.recv .prev fun m =>
    match seedOf m with
    | .error e => .pure (.error e)
    | .ok prevSeed => .send .prev (.prfKey mySeed) (.recv .next fun m => .pure (do
      let nextSeed ← seedOf m
      return xorSeeds mySeed prevSeed nextSeed)))

/-- A session of `make_sessions` that makes the calls; `none` when the set-up fails, or when a protocol receives a
seed. -/
def runSession {R : Type} [SeedableRng R] (overflowChecks : Bool) (fuel : Nat) (s : Session) (mySeed : PrfKey)
    (calls : List JointCall) : Process SessionMsg (Option (Prf R)) :=
  (setupReplicatedPrf mySeed).bind fun
    | .ok prf => (runCalls overflowChecks fuel s calls prf).embed SessionMsg.ring SessionMsg.toRing
    | .error _ => .pure none

end AmpcCommon.Protocol
