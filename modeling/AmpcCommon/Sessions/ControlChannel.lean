import AmpcCommon.Base.Process
import AmpcCommon.Base.StreamTask
import AmpcCommon.Sessions.NetworkHandle
import AmpcCommon.Tcp.Handshake
import AmpcCommon.Wire.NetworkValue
import Mathlib.Data.List.AList

/-!
# The control channel

The model of `network/mpc/handle/control_channel.rs` and of `control_channel` in `network_handle.rs`: three parties, a
stream between each two of them, and a sequence of joint steps that all parties make. A write puts its bytes on the
stream in chunks, a read takes them in chunks, and nothing else is known about the order in which the parties go on.
There are no transport errors, and no shutdown. A stream takes all bytes that are written to it; one that takes only so
many at a time has fewer runs, so that what holds in every state holds there too, but its runs can end earlier.
-/

namespace AmpcCommon.Sessions

open Tcp (Identity)
open Wire (NetworkValue)

/-! ## The two streams of a party -/

/-- `Role` -/
abbrev Role := UInt8

/-- `Role::new` -/
def Role.new (x : Nat) : Role := UInt8.ofNat x

/-- `Role::next` -/
def Role.next (role : Role) (numPlayers : UInt8) : Outcome Role :=
  if numPlayers = 0 then .panicked "attempt to calculate the remainder with a divisor of zero"
  else .ok ((role + 1) % numPlayers)

/-- What `control_channel` reads of an `MpcNetworkHandle`; of its peers only their ids. -/
structure NetworkHandle where
  peers : Identity × Identity
  partyIndex : Nat
  roleAssignments : AList fun _ : Role => Identity

/-- The `RoleAssignment` of the parties, by their indices. -/
def roleAssignment (identities : List Identity) : AList fun _ : Role => Identity :=
  identities.zipIdx.foldl (fun roles x => roles.insert (Role.new x.2) x.1) ∅

/-- `build_network_handle`: the peers are the other parties, in the order of their indices. -/
def buildNetworkHandle (identities : List Identity) (myIndex : Nat) : Outcome NetworkHandle :=
  match (identities.zipIdx.filter fun x => x.2 ≠ myIndex).map Prod.fst with
  | peer0 :: peer1 :: _ => .ok ⟨(peer0, peer1), myIndex, roleAssignment identities⟩
  | _ => .panicked "expected at least 2 identities"

/-- `TcpControlChannel` -/
structure TcpControlChannel (T : Type) where
  nextStream : T
  prevStream : T
  deriving DecidableEq

/-- `control_channel`, with the connections to the two peers. -/
def NetworkHandle.controlChannel {T : Type} (handle : NetworkHandle) (c0 c1 : List T) :
    Outcome (TcpControlChannel T) := do
  match c0.head?, c1.head? with
  | none, _ => .bail "no connection to peer 0"
  | some _, none => .bail "no connection to peer 1"
  | some streamToPeer0, some streamToPeer1 =>
    let myRole := Role.new handle.partyIndex
    let nextRole ← myRole.next (UInt8.ofNat handle.roleAssignments.keys.length)
    match handle.roleAssignments.lookup nextRole with
    | none => .bail "next role not found in role_assignments"
    | some nextId =>
      if handle.peers.1 = nextId then return ⟨streamToPeer0, streamToPeer1⟩
      else return ⟨streamToPeer1, streamToPeer0⟩

/-! ## Messages -/

/-- `MAX_MESSAGE_SIZE` -/
def maxMessageSize : Nat := 1024 * 1024

/-- `SYNC_TOKEN_BYTES` -/
def syncTokenBytes : Bytes := [0x6F, 0x6B]

section Messages

variable {T N : Type}

/-- `write_value` -/
def writeValue (stream : T) (value : NetworkValue) : StreamTask T N Unit := do
  let bytes ← .lift value.toNetwork
  if bytes.length > maxMessageSize then
    .lift (.bail s!"message size {bytes.length} exceeds maximum allowed size {maxMessageSize}")
  else do
    .writeAll stream (LittleEndian.encode 4 bytes.length)
    .writeAll stream bytes

/-- `read_value` -/
def readValue (stream : T) : StreamTask T N NetworkValue := do
  let len := LittleEndian.decode (← .readExact stream 4)
  if len > maxMessageSize then
    .lift (.bail s!"message size {len} exceeds maximum allowed size {maxMessageSize}")
  else do
    let buf ← .readExact stream len
    .lift (NetworkValue.deserialize buf)

/-- The check `sync` makes of the token it has received from a party. -/
def checkSyncToken (party : String) : NetworkValue → Outcome Unit
  | .bytes bytes =>
    if bytes = syncTokenBytes then .ok ()
    else .bail s!"invalid sync token received from {party} party"
  | _ => .bail s!"invalid sync token received from {party} party"

namespace TcpControlChannel

variable (channel : TcpControlChannel T)

/-- `send_next` -/
def sendNext (value : NetworkValue) : StreamTask T N Unit := writeValue channel.nextStream value

/-- `send_prev` -/
def sendPrev (value : NetworkValue) : StreamTask T N Unit := writeValue channel.prevStream value

/-- `recv_next` -/
def recvNext : StreamTask T N NetworkValue := readValue channel.nextStream

/-- `recv_prev` -/
def recvPrev : StreamTask T N NetworkValue := readValue channel.prevStream

/-- `sync` -/
def sync : StreamTask T N Unit := do
  let token : NetworkValue := .bytes syncTokenBytes
  channel.sendNext token
  channel.sendPrev token
  let nextToken ← channel.recvNext
  .lift (checkSyncToken "next" nextToken)
  let prevToken ← channel.recvPrev
  .lift (checkSyncToken "prev" prevToken)

end TcpControlChannel

end Messages

/-! ## Joint steps -/

/-- A step that all parties make. -/
inductive JointStep where
  | sync
  /-- Every party sends its value to one neighbour, and then receives from the other. -/
  | exchange (dir : Dir) (value : Party → NetworkValue)

/-- What a party notes down about its steps. -/
inductive StepNote where
  | started (k : Nat)
  /-- The step has returned `Ok`, with the value that an exchange has received. -/
  | returned (k : Nat) (received : Option NetworkValue)

/-- One step of the party `p`. -/
def JointStep.perform {T : Type} (channel : TcpControlChannel T) (p : Party) :
    JointStep → StreamTask T StepNote (Option NetworkValue)
  | .sync => do
    channel.sync
    return none
  | .exchange .next value => do
    channel.sendNext (value p)
    return some (← channel.recvPrev)
  | .exchange .prev value => do
    channel.sendPrev (value p)
    return some (← channel.recvNext)

/-- The steps of the party `p`, from the number `k` on. -/
def runSteps {T : Type} (channel : TcpControlChannel T) (p : Party) :
    Nat → List JointStep → StreamTask T StepNote Unit
  | _, [] => return ()
  | k, s :: steps => do
    .note (.started k)
    let received ← s.perform channel p
    .note (.returned k received)
    runSteps channel p (k + 1) steps

/-- The connections to a peer that `make_connections` returns: a stream goes by the party at its other end. -/
def connectionsTo (identities : Party → Identity) (peer : Identity) : List Party :=
  (List.finRange 3).filter fun q => identities q = peer

/-- The channel of the party `p`. -/
def channelOf (identities : Party → Identity) (p : Party) : Outcome (TcpControlChannel Party) := do
  let handle ← buildNetworkHandle (List.ofFn identities) p
  handle.controlChannel (connectionsTo identities handle.peers.1) (connectionsTo identities handle.peers.2)

/-- What the party `p` does. -/
def controlParty (identities : Party → Identity) (steps : List JointStep) (p : Party) :
    StreamTask Party StepNote Unit := do
  let channel ← .lift (channelOf identities p)
  runSteps channel p 0 steps

/-- The stream of `p` to `q` is the stream of `q` to `p`. -/
def streamEnds (e : Party × Party) : Party × Party := e.swap

end AmpcCommon.Sessions
