import AmpcCommon.Wire.NetworkValue
import AmpcCommon.Base.Batch
import AmpcCommon.Base.ByteReader
import Mathlib.Logic.Function.Basic

/-!
# The multiplexer

The model of `handle_outbound_traffic` and `handle_inbound_traffic` of `session/multiplexer.rs`: the messages of all
sessions share one connection. The writer packs queued messages into packets, each message behind its session id; the
reader finds the length of a message from its descriptor byte and hands the message to its session.
-/

namespace AmpcCommon.Channel

open Wire

/-- `BUFFER_CAPACITY` -/
def bufferCapacity : Nat := 32 * 1024

/-- `READ_BUF_SIZE` -/
def readBufSize : Nat := 2 * 1024 * 1024

/-- `OutboundMsg`: a session id and a value. -/
abbrev OutboundMsg := BitVec 32 × NetworkValue

/-- Append a message to the buffer, its session id first. -/
def pushMsg (buf : Bytes) (m : OutboundMsg) : Outcome Bytes :=
  m.2.serialize (buf ++ LittleEndian.encode 4 m.1.toNat)

/-- `handle_outbound_traffic`: the packets it writes. The queue is what the task finds in it at its successive looks,
`none` where it is empty. -/
def handleOutboundTraffic (numSessions : Nat) (queue : List (Option OutboundMsg)) : Outcome (List Bytes) :=
  Batch.write pushMsg (fun bufferedMsgs => bufferedMsgs < numSessions) (fun buf => bufferCapacity ≤ buf.length) queue

/-- The kinds of values with a length field that counts bytes. -/
def hasByteLen : DescriptorByte → Bool
  | .vecRing16 | .vecRing32 | .vecRing64 | .vecRing48 | .networkVec | .bytes => true
  | _ => false

/-- The length of a message, by its descriptor and its length field. -/
def totalLen (nd : DescriptorByte) (field : Nat) : Nat :=
  if hasByteLen nd then nd.baseLen + field
  else if nd = .vecRingBit then nd.baseLen + (field + 7) / 8
  else nd.baseLen

/-- The queue of a session: open, with the values put into it, or dropped by the session. -/
inductive Inbox where
  | open (values : List NetworkValue)
  | dropped

/-- What the inbound task works on: its buffer, and the queues of the sessions it knows. -/
structure InboundTask where
  buf : Bytes
  inboundTx : BitVec 32 → Option Inbox

namespace InboundTask

/-- Read the rest of a message of `len` bytes of which the first `offset` are in the buffer. -/
def readRest (buf : Bytes) (offset len : Nat) : ByteReader (Bytes × Nat) := do
  let buf := if buf.length < len then buf ++ List.replicate (len - buf.length) 0 else buf
  let buf ← buf.readInto offset len
  pure (buf, len)

/-- Read a message into the buffer: the buffer, and the length of the message. -/
def readMessage (buf : Bytes) : ByteReader (Bytes × Nat) := do
  let buf ← buf.readInto 0 1
  let b ← Stream.lift (buf.index 0)
  match DescriptorByte.tryFrom b with
  | .error _ => Stream.fail (.error "invalid descriptor byte")
  | .ok nd =>
    if hasByteLen nd ∨ nd = .vecRingBit then do
      let buf ← buf.readInto 1 5
      let field ← Stream.lift (readLe 4 buf 1)
      readRest buf 5 (totalLen nd field)
    else readRest buf 1 (totalLen nd 0)

/-- Forward the message in the buffer to its session. -/
def forward (task : InboundTask) (sessionId : BitVec 32) (len : Nat) : Outcome InboundTask :=
  match task.inboundTx sessionId with
  | none => .ok task
  | some inbox =>
    match task.buf.slice 0 len >>= NetworkValue.deserialize with
    | .error (.error e) => .bail (s!"failed to deserialize message: {e}")
    | .error e => .error e
    | .ok nv =>
      match inbox with
      | .open values =>
        .ok { task with inboundTx := Function.update task.inboundTx sessionId (some (.open (values ++ [nv]))) }
      | .dropped => .bail "failed to forward message"

/-- One pass of the loop of `handle_inbound_traffic`. -/
def handleOne (task : InboundTask) : ByteReader InboundTask := do
  let sessionIdBuf ← Stream.readExact 4
  let sessionId := BitVec.ofNat 32 (LittleEndian.decode sessionIdBuf)
  let (buf, len) ← readMessage task.buf
  Stream.lift ({ task with buf }.forward sessionId len)

end InboundTask

/-- `handle_inbound_traffic`, for at most `fuel` messages. -/
def handleInboundTraffic (inboundTx : BitVec 32 → Option Inbox) (fuel : Nat) (chunks : List Bytes) :
    InboundTask × Option (Stream.ReadEnd UInt8 Failure) :=
  Stream.loop InboundTask.handleOne fuel ⟨List.replicate readBufSize 0, inboundTx⟩ chunks

end AmpcCommon.Channel
