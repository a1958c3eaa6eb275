import AmpcCommon.Workpool.Connection
import AmpcCommon.Base.Batch
import AmpcCommon.Base.ByteReader

/-!
# The framing of the workpool

The model of `network/workpool/value.rs`, and of the writer `serialize_and_write_outbound` and the reader
`read_single_message` of `network/workpool/mod.rs`. A message is a descriptor byte, fixed fields and, for two of the
kinds, a body whose length is the last of these fields. The reader finds the lengths again at fixed offsets, and it
refuses a body of more than `MAX_PAYLOAD_SIZE` bytes.
-/

namespace AmpcCommon.Workpool

/-- `MAX_PAYLOAD_SIZE` -/
def maxPayloadSize : Nat := 50 * 1024 * 1024

/-- `MAX_TO_BATCH` -/
def maxToBatch : Nat := 64 * 1024 * 1024

/-- `size_of::<JobId>()` -/
def jobIdSize : Nat := 4

/-- A value of a type with `ToBytes`: what `to_bytes` appends to a buffer, and `len`. -/
structure ToBytes where
  bytes : Bytes
  len : Nat
  len_eq : bytes.length = len
  deriving Repr, DecidableEq

/-- `Payload` -/
inductive Payload where
  | bytes (b : Bytes)
  | dyn (p : ToBytes)
  deriving Repr, DecidableEq

namespace Payload

def len : Payload → Nat
  | .bytes b => b.length
  | .dyn p => p.len

/-- Get the payload as `Bytes`. -/
def toBytes : Payload → Bytes
  | .bytes b => b
  | .dyn p => p.bytes

@[simp] theorem length_toBytes (p : Payload) : p.toBytes.length = p.len := by
  cases p with
  | bytes b => rfl
  | dyn p => exact p.len_eq

end Payload

/-- `DescriptorByte` -/
inductive DescriptorByte where
  | job
  | pendingJobsRequest
  | pendingJobsReply
  | cancel
  deriving Repr, DecidableEq

namespace DescriptorByte

def toByte : DescriptorByte → UInt8
  | job => 0x01
  | pendingJobsRequest => 0x03
  | pendingJobsReply => 0x04
  | cancel => 0x05

/-- `DescriptorByte::try_from` -/
def tryFrom (b : UInt8) : Option DescriptorByte :=
  [job, pendingJobsRequest, pendingJobsReply, cancel].find? fun d => d.toByte == b

/-- The name of the descriptor, as error messages show it. -/
def name : DescriptorByte → String
  | job => "Job"
  | pendingJobsRequest => "PendingJobsRequest"
  | pendingJobsReply => "PendingJobsReply"
  | cancel => "Cancel"

/-- The fixed header length (including descriptor byte) of a message type. -/
def headerLen : DescriptorByte → Nat
  | job => 11
  | pendingJobsRequest => 3
  | pendingJobsReply => 7
  | cancel => 7

@[simp] theorem tryFrom_toByte (d : DescriptorByte) : tryFrom d.toByte = some d := by
  cases d <;> rfl

end DescriptorByte

/-- `DeserializeError::InvalidInput` -/
def invalidInput (msg : String) : Failure := .error s!"invalid input: {msg}"

/-- `DeserializeError::InvalidDescriptorByte` -/
def invalidDescriptorByte (b : UInt8) : Failure := .error s!"invalid descriptor byte {b}"

/-- `to_le_bytes` of a `JobId`, of a `WorkerId` or of a length that is cast to `u32`. -/
def toLeBytes (n x : Nat) : Bytes := LittleEndian.encode n x

/-- `from_le_bytes(bytes[start..start + n].try_into()?)` -/
def fromLeBytes (n : Nat) (bytes : Bytes) (start : Nat) : Outcome Nat := do
  let field ← bytes.slice start (start + n)
  if field.length = n then .ok (LittleEndian.decode field)
  else .bail "parsing failed: could not convert slice to array"

/-- The job id at the place `start`. -/
def readJobId (bytes : Bytes) (start : Nat) : Outcome JobId := (fromLeBytes 4 bytes start).map (Fin.ofNat _)

/-- The worker id at the place `start`. -/
def readWorkerId (bytes : Bytes) (start : Nat) : Outcome WorkerId := (fromLeBytes 2 bytes start).map (Fin.ofNat _)

namespace NetworkValue

/-- `get_descriptor_byte` -/
def getDescriptorByte : NetworkValue Payload → DescriptorByte
  | .job _ _ _ => .job
  | .pendingJobsRequest _ => .pendingJobsRequest
  | .pendingJobsReply _ _ => .pendingJobsReply
  | .cancel _ _ => .cancel

/-- The total byte length when serialized. -/
def byteLen : NetworkValue Payload → Nat
  | .job _ _ payload => DescriptorByte.job.headerLen + payload.len
  | .pendingJobsReply _ jobIds => DescriptorByte.pendingJobsReply.headerLen + jobIds.length * jobIdSize
  | m => m.getDescriptorByte.headerLen

/-- Append the bytes of a message to a buffer. A length is cast to `u32`. -/
def serialize (m : NetworkValue Payload) (buf : Bytes) : Bytes :=
  let buf := buf ++ [m.getDescriptorByte.toByte]
  match m with
  | .job jobId workerId payload =>
    let buf := buf ++ toLeBytes 4 jobId
    let buf := buf ++ toLeBytes 2 workerId
    let buf := buf ++ toLeBytes 4 payload.len
    buf ++ payload.toBytes
  | .pendingJobsRequest workerId => buf ++ toLeBytes 2 workerId
  | .pendingJobsReply workerId jobIds =>
    let buf := buf ++ toLeBytes 2 workerId
    let buf := buf ++ toLeBytes 4 (jobIds.length * jobIdSize)
    jobIds.foldl (fun buf jobId => buf ++ toLeBytes 4 jobId.val) buf
  | .cancel jobId workerId =>
    let buf := buf ++ toLeBytes 4 jobId
    buf ++ toLeBytes 2 workerId

/-- The part of `deserialize` behind the checks of the descriptor and the header. -/
def deserializeBody (bytes : Bytes) : DescriptorByte → Outcome (NetworkValue Payload)
  | .job => do
    let jobId ← readJobId bytes 1
    let workerId ← readWorkerId bytes 5
    let payloadLen ← fromLeBytes 4 bytes 7
    if bytes.length < DescriptorByte.job.headerLen + payloadLen then
      .error (invalidInput (s!"Incomplete payload: expected {DescriptorByte.job.headerLen + payloadLen} bytes, " ++
        s!"got {bytes.length}"))
    else
      let payload ← bytes.slice 11 (11 + payloadLen)
      return .job jobId workerId (.bytes payload)
  | .pendingJobsRequest => do
    let workerId ← readWorkerId bytes 1
    return .pendingJobsRequest workerId
  | .pendingJobsReply => do
    let headerLen := DescriptorByte.pendingJobsReply.headerLen
    let workerId ← readWorkerId bytes 1
    let payloadLen ← fromLeBytes 4 bytes 3
    if bytes.length < headerLen + payloadLen then
      .error (invalidInput (s!"Incomplete PendingJobsReply payload: expected {headerLen + payloadLen} bytes, " ++
        s!"got {bytes.length}"))
    else if payloadLen % jobIdSize ≠ 0 then
      .error (invalidInput (s!"PendingJobsReply payload_len {payloadLen}: not divisible by JobId size " ++
        s!"({jobIdSize})"))
    else
      let jobIds ← (List.range' headerLen (payloadLen / jobIdSize) jobIdSize).mapM (readJobId bytes)
      return .pendingJobsReply workerId jobIds
  | .cancel => do
    let jobId ← readJobId bytes 1
    let workerId ← readWorkerId bytes 5
    return .cancel jobId workerId

def deserialize (bytes : Bytes) : Outcome (NetworkValue Payload) := do
  if bytes.isEmpty then .error (invalidInput "Empty buffer")
  else
    let b ← bytes.index 0
    match DescriptorByte.tryFrom b with
    | none => .error (invalidDescriptorByte b)
    | some descriptor =>
      if bytes.length < descriptor.headerLen then
        .error (invalidInput s!"Buffer too short for {descriptor.name}: {bytes.length} bytes")
      else deserializeBody bytes descriptor

end NetworkValue

/-- `serialize_and_write_outbound`: the batches it writes. The queue is what the task finds in it at its successive
looks, `none` where it is empty. -/
def serializeAndWriteOutbound (queue : List (Option (NetworkValue Payload))) : Outcome (List Bytes) :=
  Batch.write (fun buf msg => .ok (msg.serialize buf)) (fun _ => true) (fun buf => maxToBatch ≤ buf.length) queue

/-- Why a body of more than `MAX_PAYLOAD_SIZE` bytes is refused. -/
def exceedsMaximum (payloadLen : Nat) : Failure :=
  invalidInput s!"Payload size {payloadLen} exceeds maximum {maxPayloadSize}"

/-- The length of the body of a message, by the fields in its header. -/
def bodyLen (buf : Bytes) : DescriptorByte → Outcome Nat
  | .job => fromLeBytes 4 buf 7
  | .pendingJobsReply => fromLeBytes 4 buf 3
  | .pendingJobsRequest | .cancel => .ok 0

/-- Read the descriptor and the header of a message. -/
def readHeader : ByteReader (DescriptorByte × Bytes) := do
  let buf ← Bytes.readInto [0] 0 1
  let b ← Stream.lift (buf.index 0)
  match DescriptorByte.tryFrom b with
  | none => Stream.fail (invalidDescriptorByte b)
  | some descriptor =>
    let headerLen := descriptor.headerLen
    let buf ← (buf.resize headerLen).readInto 1 headerLen
    pure (descriptor, buf)

/-- Read the body behind a header and parse the message. -/
def readBody (descriptor : DescriptorByte) (buf : Bytes) : ByteReader (NetworkValue Payload) := do
  let headerLen := descriptor.headerLen
  let payloadLen ← Stream.lift (bodyLen buf descriptor)
  if maxPayloadSize < payloadLen then Stream.fail (exceedsMaximum payloadLen)
  else if 0 < payloadLen then
    let buf ← (buf.resize (headerLen + payloadLen)).readInto headerLen (headerLen + payloadLen)
    Stream.lift (NetworkValue.deserialize buf)
  else Stream.lift (NetworkValue.deserialize buf)

/-- Read and parse a single network message. -/
def readSingleMessage : ByteReader (NetworkValue Payload) := do
  let (descriptor, buf) ← readHeader
  readBody descriptor buf

/-- Read messages one after the other, at most `fuel` of them: the messages, and why no more were read. -/
def readMessages (fuel : Nat) (chunks : List Bytes) :
    List (NetworkValue Payload) × Option (Stream.ReadEnd UInt8 Failure) :=
  Stream.loop (fun received => do
    let networkValue ← readSingleMessage
    pure (received ++ [networkValue])) fuel [] chunks

end AmpcCommon.Workpool
