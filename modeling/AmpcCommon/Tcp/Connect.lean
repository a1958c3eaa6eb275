import AmpcCommon.Base.StreamTask
import AmpcCommon.Tcp.Handshake
import Mathlib.Data.Fintype.Basic

/-!
# Making a connection

The model of both halves of `connection/handshake.rs`, on a stream whose bytes come in chunks: the client's half, as
`Connector::connect` runs it, and the server's, as `accept_loop` runs it when a requester waits for the connection.
There are no transport errors.
-/

namespace AmpcCommon.Tcp.Connect

/-- The two ends of a stream. -/
inductive Endpoint where
  | client
  | server
  deriving Repr, DecidableEq

instance : Fintype Endpoint := ⟨{.client, .server}, fun e => by cases e <;> decide⟩

/-- What the server notes down. -/
inductive HandshakeNote where
  /-- `inbound` has returned `Ok`. -/
  | inbound (peerId : Identity) (connectionId : ConnectionId)
  /-- The stream is sent to the requester. -/
  | handedOver
  deriving Repr, DecidableEq

/-- A program of one end, on its only stream. -/
abbrev HandshakeTask := StreamTask Unit HandshakeNote

/-- `write_u32` -/
def writeU32 (n : BitVec 32) : HandshakeTask Unit := .writeAll () (toBeBytes n)

/-- `read_u32` -/
def readU32 : HandshakeTask (BitVec 32) := do
  return fromBeBytes (← .readExact () 4)

/-- `handshake::outbound` -/
def outbound (ownId : Identity) (connectionId : ConnectionId) : HandshakeTask Unit := do
  writeU32 connectionId
  let echoedId ← readU32
  if echoedId ≠ connectionId then
    .lift (.bail s!"Handshake failed: expected stream_id {connectionId.toNat}, got {echoedId.toNat}")
  else do
    let ownIdBytes := utf8Bytes ownId
    writeU32 (BitVec.ofNat 32 ownIdBytes.length)
    .writeAll () ownIdBytes

/-- The check `outbound_ok` makes of the bytes it has read. -/
def checkResponse (rsp : Bytes) : Outcome Unit :=
  if rsp.length ≠ 3 ∨ rsp ≠ handshakeOk then
    .bail s!"Handshake failed: not accepted: rsp={rsp.map UInt8.toNat}"
  else .ok ()

/-- `handshake::outbound_ok`: the response is read with a single `read`. -/
def outboundOk : HandshakeTask Unit := do
  let rsp ← .read () 3
  .lift (checkResponse rsp)

/-- `handshake::inbound` -/
def inbound : HandshakeTask (Identity × ConnectionId) := do
  let connectionId ← readU32
  writeU32 connectionId
  let peerIdLength ← readU32
  if peerIdLength.toNat > maxPeerIdLength then
    .lift (.bail s!"invalid peer_id_length. too long: {peerIdLength.toNat}")
  else do
    let peerIdBytes ← .readExact () peerIdLength.toNat
    match fromUtf8 peerIdBytes with
    | some peerId => return (peerId, connectionId)
    | none => .lift (.bail "Failed to parse peer_id bytes as UTF-8")

/-- `handshake::inbound_ok` -/
def inboundOk : HandshakeTask Unit := .writeAll () handshakeOk

/-- The client's half: `Connector::connect` on a stream. -/
def connect (ownId : Identity) (connectionId : ConnectionId) : HandshakeTask Unit := do
  outbound ownId connectionId
  outboundOk

/-- The server's half: `accept_loop` on a stream that a requester waits for. -/
def accept : HandshakeTask Unit := do
  let (peerId, connectionId) ← inbound
  .note (.inbound peerId connectionId)
  inboundOk
  .note .handedOver

/-- What the two ends do. -/
def party (ownId : Identity) (connectionId : ConnectionId) : Endpoint → HandshakeTask Unit
  | .client => connect ownId connectionId
  | .server => accept

/-- The stream has two ends. -/
def otherEnd : Endpoint × Unit → Endpoint × Unit
  | (.client, _) => (.server, ())
  | (.server, _) => (.client, ())

/-- One step of an end. -/
abbrev step := StreamNetwork.step (β := UInt8) (N := HandshakeNote) (α := Outcome Unit) otherEnd

/-- The ends in the middle of a handshake. -/
abbrev Network := StreamNetwork.Config Endpoint Unit UInt8 HandshakeNote (Outcome Unit)

end AmpcCommon.Tcp.Connect
