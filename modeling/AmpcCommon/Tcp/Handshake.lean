import AmpcCommon.Base.Bytes

/-!
# The handshake of a connection

The model of the server's half of `connection/handshake.rs`. A stream gives the bytes its peer sends, and an error
after them; any of its writes can fail.
-/

namespace AmpcCommon.Tcp

/-- `Identity` -/
abbrev Identity := String

/-- `ConnectionId`, a `u32` -/
abbrev ConnectionId := BitVec 32

/-- An inbound connection. -/
structure Stream where
  /-- What the peer sends. -/
  input : Bytes
  /-- Which of the writes to come succeed; the ones after them fail. -/
  writes : List Bool
  /-- What was written. -/
  output : Bytes
  /-- `maybe_tls_cert_chain` -/
  maybeTlsCertChain : Option (List Bytes)
  /-- How the error of a read or write is printed. -/
  ioError : String
  deriving Repr, DecidableEq

namespace Stream

/-- `read_exact` -/
def readExact (n : Nat) (stream : Stream) : Except String (Bytes × Stream) :=
  if stream.input.length < n then .error stream.ioError
  else .ok (stream.input.take n, { stream with input := stream.input.drop n })

/-- `write_all` -/
def writeAll (bytes : Bytes) (stream : Stream) : Except String Stream :=
  match stream.writes with
  | true :: writes => .ok { stream with writes := writes, output := stream.output ++ bytes }
  | _ => .error stream.ioError

end Stream

/-- `u32::to_be_bytes` -/
def toBeBytes (n : BitVec 32) : Bytes := (LittleEndian.encode 4 n.toNat).reverse

/-- `u32::from_be_bytes` -/
def fromBeBytes (bytes : Bytes) : BitVec 32 := BitVec.ofNat 32 (LittleEndian.decode bytes.reverse)

/-- `read_u32` -/
def Stream.readU32 (stream : Stream) : Except String (BitVec 32 × Stream) := do
  let (bytes, stream) ← stream.readExact 4
  pure (fromBeBytes bytes, stream)

/-- `String::from_utf8` -/
def fromUtf8 (bytes : Bytes) : Option String := String.fromUTF8? ⟨bytes.toArray⟩

/-- `String::into_bytes` -/
def utf8Bytes (s : String) : Bytes := s.toByteArray.data.toList

/-- `HANDSHAKE_OK` -/
def handshakeOk : Bytes := [0x32, 0x6F, 0x6B]

/-- `MAX_PEER_ID_LENGTH` -/
def maxPeerIdLength : Nat := 128

/-- `handshake::inbound` -/
def inbound (stream : Stream) : Except String ((Identity × ConnectionId) × Stream) := do
  let (connectionId, stream) ← stream.readU32.mapError fun e => s!"Failed to read stream_id: {e}"
  let stream ← (stream.writeAll (toBeBytes connectionId)).mapError fun e => s!"Failed to write stream_id back: {e}"
  let (peerIdLength, stream) ← stream.readU32.mapError fun e => s!"Failed to read peer_id length: {e}"
  if peerIdLength.toNat > maxPeerIdLength then
    throw s!"invalid peer_id_length. too long: {peerIdLength.toNat}"
  else
    let (peerIdBytes, stream) ←
      (stream.readExact peerIdLength.toNat).mapError fun e => s!"Failed to read peer_id bytes: {e}"
    match fromUtf8 peerIdBytes with
    | some peerId => pure ((peerId, connectionId), stream)
    | none => throw "Failed to parse peer_id bytes as UTF-8"

/-- `handshake::inbound_ok` -/
def inboundOk (stream : Stream) : Except String Stream := stream.writeAll handshakeOk

/-- What the client's half of the handshake sends. -/
def announcement (peerId : Identity) (connectionId : ConnectionId) : Bytes :=
  toBeBytes connectionId ++ (toBeBytes (BitVec.ofNat 32 (utf8Bytes peerId).length) ++ utf8Bytes peerId)

end AmpcCommon.Tcp
