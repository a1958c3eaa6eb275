import AmpcCommon.Base.Bytes
import AmpcCommon.Startup.Barriers

/-!
# The gallery check

The model of `ampc-server-utils/src/gallery_sync.rs`, as three nodes run it. A node publishes the state of its gallery
and polls the peers until all of them have published one; it accepts equal states only. A poll is answered by what the
peer has published at that moment; when a deadline expires, and when a node crashes or is started, is left open. The
text of a state in JSON, and what a text that is no state is reported as, are parameters. -/

namespace AmpcCommon.Startup

/-- `GalleryState` -/
structure GalleryState where
  dbLen : Nat
  nextAvailableSerialId : Int
  serialIdsDigest : List UInt8
  deriving Repr, DecidableEq

/-- The text of `{:?}`. -/
def GalleryState.debug (s : GalleryState) : String :=
  let digest := ", ".intercalate (s.serialIdsDigest.map fun b => toString b.toNat)
  let ids := s!"next_available_serial_id: {s.nextAvailableSerialId}, serial_ids_digest: [{digest}]"
  "GalleryState \x7b db_len: " ++ toString s.dbLen ++ ", " ++ ids ++ " \x7d"

/-- The error of `ensure_gallery_consistency`. -/
def galleryMismatch (party : Nat) (loc peer : GalleryState) : String :=
  s!"Gallery mismatch with party {party}: local={loc.debug}, peer={peer.debug}"

/-- `ensure_gallery_consistency` -/
def ensureGalleryConsistency (loc : GalleryState) : List (Nat × GalleryState) → Outcome Unit
  | [] => .ok ()
  | (party, peer) :: peers =>
    if loc = peer then ensureGalleryConsistency loc peers else .bail (galleryMismatch party loc peer)

/-- `ensure_gallery_unchanged` -/
def ensureGalleryUnchanged (before after : GalleryState) : Outcome Unit :=
  if before = after then .ok ()
  else .bail s!"Gallery changed during startup loading: before={before.debug}, after={after.debug}"

/-- `StatusCode`, with its canonical reason. -/
structure StatusCode where
  code : Nat
  reason : String
  deriving Repr, DecidableEq

namespace StatusCode

/-- `StatusCode::OK` -/
def ok : StatusCode := ⟨200, "OK"⟩

/-- `StatusCode::SERVICE_UNAVAILABLE` -/
def serviceUnavailable : StatusCode := ⟨503, "Service Unavailable"⟩

/-- `is_success` -/
def isSuccess (status : StatusCode) : Bool := 200 ≤ status.code && status.code < 300

/-- `Display` -/
instance : ToString StatusCode := ⟨fun status => s!"{status.code} {status.reason}"⟩

end StatusCode

/-- An answer: its status and its body. -/
abbrev GalleryAnswer := StatusCode × Bytes

/-- The route `/gallery-sync` -/
def galleryRoute (encode : GalleryState → Bytes) (published : Option GalleryState) : GalleryAnswer :=
  match published with
  | some state => (.ok, encode state)
  | none => (.serviceUnavailable, [])

/-- The loop of `check` over the peers and their answers. -/
def checkAnswers (decode : Bytes → Except String GalleryState) (loc : GalleryState) :
    List (Nat × GalleryAnswer) → Outcome Unit
  | [] => .ok ()
  | (party, status, body) :: rest =>
    if ¬ status.isSuccess then
      .bail s!"Party {party} returned {status} for post-recovery gallery state"
    else
      match decode body with
      | .error _ => .bail s!"Invalid gallery state from party {party}"
      | .ok peer => do
        ensureGalleryConsistency loc [(party, peer)]
        checkAnswers decode loc rest

/-! ## The nodes -/

/-- Where a node is in the check of its gallery. -/
inductive GalleryPhase where
  | idle
  /-- `check` polls. -/
  | polling (loc : GalleryState) (answers : Node → Option GalleryAnswer)
  /-- `check` has returned `Ok`, and the gallery is loaded. -/
  | loading (loc : GalleryState)
  /-- The gallery is loaded and has not changed. -/
  | loaded (loc : GalleryState)
  | failed (msg : String)

/-- A node with its `GallerySync`. -/
structure GalleryNode where
  published : Option GalleryState
  phase : GalleryPhase

/-- The nodes that are running, and what has been published so far. -/
structure GalleryCluster where
  nodes : Node → Option GalleryNode
  history : List (Node × GalleryState)

inductive GalleryAction where
  | start
  | crash
  /-- `check` is called with the state of the gallery. -/
  | check (loc : GalleryState)
  /-- The poll of a peer is answered. A poll whose answer got lost is made again. -/
  | answer (peer : Node)
  /-- All polls of the round were answered. -/
  | proceed
  /-- A deadline expires: of the polls, or of `check`. -/
  | expire (polls : Bool)
  /-- The gallery is loaded, and its state read again. -/
  | load (after : GalleryState)

namespace GalleryCluster

/-- No node is running. -/
def init : GalleryCluster := ⟨fun _ => none, []⟩

/-- A node goes on. -/
def set (s : GalleryCluster) (n : Node) (node : GalleryNode) : GalleryCluster :=
  { s with nodes := Function.update s.nodes n (some node) }

variable (encode : GalleryState → Bytes) (decode : Bytes → Except String GalleryState)

/-- What a node does when its polls were answered. -/
def checked (loc : GalleryState) (answers : List (Nat × GalleryAnswer)) : GalleryPhase :=
  if answers.any fun a => a.2.1 == StatusCode.serviceUnavailable then .polling loc fun _ => none
  else
    match checkAnswers decode loc answers with
    | .ok () => .loading loc
    | .error (.error msg) => .failed msg
    | .error (.panic msg) => .failed msg

/-- One step: the node, and what happens there. -/
def step (s : GalleryCluster) (action : Node × GalleryAction) : Option GalleryCluster :=
  let (n, action) := action
  match s.nodes n, action with
  | none, .start => some (s.set n ⟨none, .idle⟩)
  | none, _ => none
  | some _, .start => none
  | some _, .crash => some { s with nodes := Function.update s.nodes n none }
  | some node, .check loc =>
    match node.phase with
    | .idle =>
      some { s.set n ⟨some loc, .polling loc fun _ => none⟩ with history := s.history ++ [(n, loc)] }
    | _ => none
  | some node, .answer peer =>
    match node.phase, s.nodes peer with
    | .polling loc answers, some peerNode =>
      if peer ≠ n then
        some (s.set n { node with
          phase := .polling loc (Function.update answers peer (some (galleryRoute encode peerNode.published))) })
      else none
    | _, _ => none
  | some node, .proceed =>
    match node.phase with
    | .polling loc answers => do
      let responses ← (otherNodes n).mapM answers
      let parties := (otherNodes n).map Fin.val
      some (s.set n { node with phase := checked decode loc (parties.zip responses) })
    | _ => none
  | some node, .expire polls =>
    match node.phase with
    | .polling _ _ =>
      let msg := if polls then "Startup sync timed out"
        else s!"Timed out gathering post-recovery gallery state for party {n.val}"
      some (s.set n { node with phase := .failed msg })
    | _ => none
  | some node, .load after =>
    match node.phase with
    | .loading loc =>
      match ensureGalleryUnchanged loc after with
      | .ok () => some (s.set n { node with phase := .loaded after })
      | .error (.error msg) => some (s.set n { node with phase := .failed msg })
      | .error (.panic msg) => some (s.set n { node with phase := .failed msg })
    | _ => none

end GalleryCluster

end AmpcCommon.Startup
