import AmpcCommon.Wire.NetworkValue
import AmpcCommon.Protocol.Session

/-!
# Agreement on jobs

The model of `sync.rs`: before a job the three parties compare the hash of the request, and whether the input of all of
them is valid. Every party sends its frame to the two others and reads theirs.
-/

namespace AmpcCommon.Sync

open Wire Protocol

/-- `JOB_HASH_LEN` -/
def jobHashLen : Nat := 32

/-- A hash digest, `[u8; JOB_HASH_LEN]`. -/
structure JobHash where
  bytes : Bytes
  size_eq : bytes.length = jobHashLen
  deriving Repr, DecidableEq

/-- The digest in a value that was received. -/
def hashBytes : NetworkValue → Outcome Bytes
  | .bytes b =>
    if b.length = jobHashLen then .ok b
    else .bail s!"Unexpected network value in job hash sync (expected {jobHashLen} bytes)"
  | _ => .bail s!"Unexpected network value in job hash sync (expected {jobHashLen} bytes)"

/-- The values of the three parties, in the order of their roles. -/
def orderByRole (ownRole : Nat) (own fromNext fromPrev : NetworkValue) :
    Outcome (NetworkValue × NetworkValue × NetworkValue) :=
  match ownRole with
  | 0 => .ok (own, fromNext, fromPrev)
  | 1 => .ok (fromPrev, own, fromNext)
  | 2 => .ok (fromNext, fromPrev, own)
  | _ => .bail "Invalid party id"

/-- What a party returns when it has read the values of the others. -/
def compareHashes (ownRole : Nat) (own fromNext fromPrev : NetworkValue) : Outcome Bool := do
  let (v0, v1, v2) ← orderByRole ownRole own fromNext fromPrev
  let b0 ← hashBytes v0
  let b1 ← hashBytes v1
  let b2 ← hashBytes v2
  pure (decide (b0 = b1 ∧ b1 = b2))

/-- `sync_on_job_hash` -/
def syncOnJobHash (ownRole : Party) (hash : JobHash) : Process NetworkValue (Outcome Bool) :=
  let own := NetworkValue.bytes hash.bytes
  .send .next own (.send .prev own (.recv .next fun fromNext => .recv .prev fun fromPrev =>
    .pure (compareHashes ownRole.val own fromNext fromPrev)))

/-- The frame of a party: its hash, and whether its input is valid. -/
def validityFrame (hash : JobHash) (valid : Bool) : Bytes := hash.bytes ++ [if valid then 1 else 0]

/-- One turn of the loop of `sync_on_job_validity` over the frames of the others. -/
def checkPeer (hash : JobHash) (allValid : Bool) : NetworkValue → Outcome Bool
  | .bytes bytes =>
    if bytes.length ≠ jobHashLen + 1 then .bail "Unexpected frame length in job validity sync"
    else if bytes.take jobHashLen ≠ hash.bytes then .bail "Mismatched job hashes in job validity sync"
    else
      match bytes[jobHashLen]? with
      | some 0 => .ok false
      | some 1 => .ok allValid
      | _ => .bail "Invalid validity flag in job validity sync"
  | _ => .bail "Unexpected network value in job validity sync (expected bytes)"

/-- `sync_on_job_validity` -/
def syncOnJobValidity (hash : JobHash) (valid : Bool) : Process NetworkValue (Outcome Bool) :=
  let own := NetworkValue.bytes (validityFrame hash valid)
  .send .next own (.send .prev own (.recv .next fun fromNext => .recv .prev fun fromPrev =>
    .pure ([fromNext, fromPrev].foldlM (checkPeer hash) valid)))

/-! ## Rounds -/

/-- A call that all parties make, with the arguments of each of them. -/
inductive SyncCall where
  | jobHash (hash : Party → JobHash)
  | jobValidity (hash : Party → JobHash) (valid : Party → Bool)

/-- The call of the party `p`. -/
def SyncCall.prog (p : Party) : SyncCall → Process NetworkValue (Outcome Bool)
  | .jobHash hash => syncOnJobHash p (hash p)
  | .jobValidity hash valid => syncOnJobValidity (hash p) (valid p)

/-- A party makes its calls, one after the other, and returns their results. -/
def runSyncs (p : Party) : List SyncCall → Process NetworkValue (List (Outcome Bool))
  | [] => .pure []
  | call :: calls => (call.prog p).bind fun r => (runSyncs p calls).bind fun rs => .pure (r :: rs)

/-- The same, where the messages of a party are marked with the number of its call: `k`, `k + 1` and so on. With the
result of a call come the marks of the messages that were read in it. -/
def runMarkedSyncs (p : Party) (k : Nat) :
    List SyncCall → Process (Nat × NetworkValue) (List (Outcome Bool × List Nat))
  | [] => .pure []
  | call :: calls =>
    ((call.prog p).tagged k).bind fun r => (runMarkedSyncs p (k + 1) calls).bind fun rs => .pure (r :: rs)

end AmpcCommon.Sync
