import AmpcCommon.Workpool.Framing
import Mathlib.Data.List.ReduceOption
import Mathlib.Data.List.TakeWhile

/-!
# The framing of the workpool loses nothing that its reader accepts

A message is serialized to its descriptor byte, its fixed fields and its body (`serialize_eq`). The reader finds in
the fields the length of the body (`bodyLen_fields`) and takes exactly the message off the stream
(`reads_readSingleMessage`), if the body has at most `MAX_PAYLOAD_SIZE` bytes; at a longer one it ends with an error
(`fails_readSingleMessage`).
-/

namespace AmpcCommon.Workpool

open Stream

namespace NetworkValue

/-- The length of the payload or of the encoded job ids of a message. -/
def payloadLen : NetworkValue Payload → Nat
  | .job _ _ payload => payload.len
  | .pendingJobsReply _ jobIds => jobIds.length * jobIdSize
  | .pendingJobsRequest _ | .cancel _ _ => 0

/-- The message as its receiver has it: the payload as bytes. -/
def received : NetworkValue Payload → NetworkValue Payload
  | .job jobId workerId payload => .job jobId workerId (.bytes payload.toBytes)
  | m => m

/-- The bytes between the descriptor and the body. -/
def fields : NetworkValue Payload → Bytes
  | .job jobId workerId payload => toLeBytes 4 jobId ++ (toLeBytes 2 workerId ++ toLeBytes 4 payload.len)
  | .pendingJobsRequest workerId => toLeBytes 2 workerId
  | .pendingJobsReply workerId jobIds => toLeBytes 2 workerId ++ toLeBytes 4 (jobIds.length * jobIdSize)
  | .cancel jobId workerId => toLeBytes 4 jobId ++ toLeBytes 2 workerId

/-- The payload, or the encoded job ids. -/
def body : NetworkValue Payload → Bytes
  | .job _ _ payload => payload.toBytes
  | .pendingJobsReply _ jobIds => (jobIds.map fun jobId => toLeBytes 4 jobId.val).flatten
  | .pendingJobsRequest _ | .cancel _ _ => []

/-- The bytes of a message on the connection. -/
def frame (m : NetworkValue Payload) : Bytes := [m.getDescriptorByte.toByte] ++ (m.fields ++ m.body)

theorem foldl_append {jobIds : List JobId} (buf : Bytes) :
    jobIds.foldl (fun buf jobId => buf ++ toLeBytes 4 jobId.val) buf =
      buf ++ (jobIds.map fun jobId => toLeBytes 4 jobId.val).flatten := by
  induction jobIds generalizing buf with
  | nil => exact (List.append_nil buf).symm
  | cons jobId jobIds ih => rw [List.foldl_cons, ih, List.map_cons, List.flatten_cons, List.append_assoc]

theorem serialize_eq (m : NetworkValue Payload) (buf : Bytes) : m.serialize buf = buf ++ m.frame := by
  cases m with
  | job jobId workerId payload => simp only [serialize, frame, fields, body, List.append_assoc]
  | pendingJobsRequest workerId => simp only [serialize, frame, fields, body, List.append_assoc, List.append_nil]
  | pendingJobsReply workerId jobIds => simp only [serialize, frame, fields, body, foldl_append, List.append_assoc]
  | cancel jobId workerId => simp only [serialize, frame, fields, body, List.append_assoc, List.append_nil]

theorem length_fields (m : NetworkValue Payload) : 1 + m.fields.length = m.getDescriptorByte.headerLen := by
  cases m <;> simp [fields, getDescriptorByte, DescriptorByte.headerLen, toLeBytes]

theorem length_jobIds (jobIds : List JobId) :
    (jobIds.map fun jobId => toLeBytes 4 jobId.val).flatten.length = jobIds.length * jobIdSize := by
  have hwidth : ∀ bs ∈ jobIds.map (fun jobId => toLeBytes 4 jobId.val), bs.length = jobIdSize := by
    intro bs hbs
    obtain ⟨jobId, -, rfl⟩ := List.mem_map.mp hbs
    exact LittleEndian.length_encode 4 _
  rw [LittleEndian.length_flatten hwidth, List.length_map]

theorem length_body (m : NetworkValue Payload) : m.body.length = m.payloadLen := by
  cases m with
  | job jobId workerId payload => exact payload.length_toBytes
  | pendingJobsRequest workerId => rfl
  | pendingJobsReply workerId jobIds => exact length_jobIds jobIds
  | cancel jobId workerId => rfl

theorem length_frame (m : NetworkValue Payload) : m.frame.length = m.getDescriptorByte.headerLen + m.payloadLen := by
  rw [frame, List.length_append, List.length_append, length_body, ← length_fields, List.length_singleton]
  omega

/-- The encoded size of a message is its `byte_len`. -/
theorem length_serialize (m : NetworkValue Payload) : (m.serialize []).length = m.byteLen := by
  rw [serialize_eq, List.nil_append, length_frame]
  cases m <;> rfl

end NetworkValue

/-! ## Fields at their places -/

/-- A field is read back from between what stands before and behind it. -/
theorem fromLeBytes_append {pre : Bytes} {n x start : Nat} (hstart : pre.length = start) (post : Bytes) :
    fromLeBytes n (pre ++ (toLeBytes n x ++ post)) start = .ok (x % 256 ^ n) := by
  subst hstart
  have hslice := Bytes.slice_append pre (toLeBytes n x) post
  have hlen : (toLeBytes n x).length = n := LittleEndian.length_encode n x
  rw [hlen] at hslice
  unfold fromLeBytes
  rw [hslice, Outcome.ok_bind, if_pos hlen]
  exact congrArg Except.ok (LittleEndian.decode_encode n x)

theorem readJobId_append {pre : Bytes} {start : Nat} (hstart : pre.length = start) (jobId : JobId) (post : Bytes) :
    readJobId (pre ++ (toLeBytes 4 jobId ++ post)) start = .ok jobId := by
  rw [readJobId, fromLeBytes_append hstart]
  exact congrArg Except.ok (Fin.ext ((Nat.mod_mod _ _).trans (Nat.mod_eq_of_lt jobId.isLt)))

theorem readWorkerId_append {pre : Bytes} {start : Nat} (hstart : pre.length = start) (workerId : WorkerId)
    (post : Bytes) : readWorkerId (pre ++ (toLeBytes 2 workerId ++ post)) start = .ok workerId := by
  rw [readWorkerId, fromLeBytes_append hstart]
  exact congrArg Except.ok (Fin.ext ((Nat.mod_mod _ _).trans (Nat.mod_eq_of_lt workerId.isLt)))

theorem readLen_append {pre : Bytes} {len start : Nat} (hstart : pre.length = start) (hlen : len < 2 ^ 32)
    (post : Bytes) : fromLeBytes 4 (pre ++ (toLeBytes 4 len ++ post)) start = .ok len := by
  rw [fromLeBytes_append hstart]
  exact congrArg Except.ok (Nat.mod_eq_of_lt hlen)

/-- A list of job ids is read back one by one. -/
theorem readJobIds_append (jobIds : List JobId) {pre : Bytes} {start : Nat} (hstart : pre.length = start) :
    (List.range' start jobIds.length jobIdSize).mapM
      (readJobId (pre ++ (jobIds.map fun jobId => toLeBytes 4 jobId.val).flatten)) = .ok jobIds := by
  induction jobIds generalizing pre start with
  | nil => rfl
  | cons jobId jobIds ih =>
    have hnext : (pre ++ toLeBytes 4 jobId).length = start + jobIdSize := by
      rw [List.length_append, hstart]
      exact congrArg (start + ·) (LittleEndian.length_encode 4 _)
    have hrest := ih hnext
    rw [List.append_assoc] at hrest
    rw [List.length_cons, List.range'_succ, List.mapM_cons, List.map_cons, List.flatten_cons,
      readJobId_append hstart, Outcome.ok_bind, hrest]
    rfl

namespace NetworkValue

variable {m : NetworkValue Payload}

theorem bodyLen_fields (hlen : m.payloadLen < 2 ^ 32) :
    bodyLen ([m.getDescriptorByte.toByte] ++ m.fields) m.getDescriptorByte = .ok m.payloadLen := by
  cases m with
  | job jobId workerId payload =>
    have hpre : ([DescriptorByte.job.toByte] ++ (toLeBytes 4 jobId ++ toLeBytes 2 workerId)).length = 7 := rfl
    have hread := readLen_append hpre hlen []
    simp only [List.append_assoc, List.append_nil] at hread
    exact hread
  | pendingJobsRequest workerId => rfl
  | pendingJobsReply workerId jobIds =>
    have hpre : ([DescriptorByte.pendingJobsReply.toByte] ++ toLeBytes 2 workerId).length = 3 := rfl
    have hread := readLen_append hpre hlen []
    simp only [List.append_assoc, List.append_nil] at hread
    exact hread
  | cancel jobId workerId => rfl

theorem deserializeBody_frame (hlen : m.payloadLen < 2 ^ 32) :
    deserializeBody m.frame m.getDescriptorByte = .ok m.received := by
  have hframe := m.length_frame
  cases m with
  | job jobId workerId payload =>
    let d := DescriptorByte.job.toByte
    have hbytes : (job jobId workerId payload).frame = [d] ++ (toLeBytes 4 jobId ++
        (toLeBytes 2 workerId ++ (toLeBytes 4 payload.len ++ payload.toBytes))) := by
      simp only [frame, fields, body, List.append_assoc]
      rfl
    have hjobId : readJobId (job jobId workerId payload).frame 1 = .ok jobId := by
      rw [hbytes]
      exact readJobId_append rfl jobId _
    have hworkerId : readWorkerId (job jobId workerId payload).frame 5 = .ok workerId := by
      rw [hbytes, ← List.append_assoc]
      exact readWorkerId_append rfl workerId _
    have hpayloadLen : fromLeBytes 4 (job jobId workerId payload).frame 7 = .ok payload.len := by
      rw [hbytes, ← List.append_assoc, ← List.append_assoc]
      exact readLen_append rfl hlen _
    have hpayload : (job jobId workerId payload).frame.slice 11 (11 + payload.len) = .ok payload.toBytes := by
      have hslice := Bytes.slice_append ([d] ++ toLeBytes 4 jobId ++ toLeBytes 2 workerId ++ toLeBytes 4 payload.len)
        payload.toBytes []
      rw [payload.length_toBytes, List.append_nil] at hslice
      rw [hbytes, ← List.append_assoc, ← List.append_assoc, ← List.append_assoc]
      exact hslice
    have hcomplete : ¬ (job jobId workerId payload).frame.length < DescriptorByte.job.headerLen + payload.len :=
      not_lt.mpr hframe.ge
    simp only [getDescriptorByte, deserializeBody]
    rw [hjobId, Outcome.ok_bind, hworkerId, Outcome.ok_bind, hpayloadLen, Outcome.ok_bind, if_neg hcomplete, hpayload]
    rfl
  | pendingJobsRequest workerId =>
    have hworkerId : readWorkerId (pendingJobsRequest workerId).frame 1 = .ok workerId :=
      readWorkerId_append rfl workerId []
    simp only [getDescriptorByte, deserializeBody]
    rw [hworkerId]
    rfl
  | pendingJobsReply workerId jobIds =>
    let d := DescriptorByte.pendingJobsReply.toByte
    have hbytes : (pendingJobsReply workerId jobIds).frame = [d] ++ (toLeBytes 2 workerId ++
        (toLeBytes 4 (jobIds.length * jobIdSize) ++ (jobIds.map fun jobId => toLeBytes 4 jobId.val).flatten)) := by
      simp only [frame, fields, body, List.append_assoc]
      rfl
    have hworkerId : readWorkerId (pendingJobsReply workerId jobIds).frame 1 = .ok workerId := by
      rw [hbytes]
      exact readWorkerId_append rfl workerId _
    have hpayloadLen : fromLeBytes 4 (pendingJobsReply workerId jobIds).frame 3 =
        .ok (jobIds.length * jobIdSize) := by
      rw [hbytes, ← List.append_assoc]
      exact readLen_append rfl hlen _
    have hjobIds : (List.range' DescriptorByte.pendingJobsReply.headerLen (jobIds.length * jobIdSize / jobIdSize)
        jobIdSize).mapM (readJobId (pendingJobsReply workerId jobIds).frame) = .ok jobIds := by
      rw [hbytes, ← List.append_assoc, ← List.append_assoc, Nat.mul_div_cancel _ (by decide)]
      exact readJobIds_append jobIds rfl
    have hcomplete : ¬ (pendingJobsReply workerId jobIds).frame.length <
        DescriptorByte.pendingJobsReply.headerLen + jobIds.length * jobIdSize := not_lt.mpr hframe.ge
    simp only [getDescriptorByte, deserializeBody]
    rw [hworkerId, Outcome.ok_bind, hpayloadLen, Outcome.ok_bind, if_neg hcomplete,
      if_neg (not_not.mpr (Nat.mul_mod_left _ _)), hjobIds]
    rfl
  | cancel jobId workerId =>
    have hjobId : readJobId (cancel jobId workerId).frame 1 = .ok jobId := by
      rw [frame, fields, List.append_assoc]
      exact readJobId_append rfl jobId _
    have hworkerId : readWorkerId (cancel jobId workerId).frame 5 = .ok workerId := by
      rw [frame, fields, List.append_assoc, ← List.append_assoc]
      exact readWorkerId_append rfl workerId []
    simp only [getDescriptorByte, deserializeBody]
    rw [hjobId, Outcome.ok_bind, hworkerId]
    rfl

/-- What was serialized is parsed back. -/
theorem deserialize_frame (hlen : m.payloadLen < 2 ^ 32) : deserialize m.frame = .ok m.received := by
  have hframe := m.length_frame
  have hshort : ¬ m.frame.length < m.getDescriptorByte.headerLen := by omega
  have hindex : m.frame.index 0 = .ok m.getDescriptorByte.toByte := rfl
  unfold deserialize
  rw [if_neg (by simp [frame]), hindex, Outcome.ok_bind, DescriptorByte.tryFrom_toByte]
  dsimp only
  rw [if_neg hshort, deserializeBody_frame hlen]

end NetworkValue

/-! ## The reader -/

section Reader

variable {m : NetworkValue Payload}

/-- The descriptor and the fixed fields are read first. -/
theorem reads_readHeader (m : NetworkValue Payload) :
    Reads readHeader ([m.getDescriptorByte.toByte] ++ m.fields)
      (m.getDescriptorByte, [m.getDescriptorByte.toByte] ++ m.fields) := by
  have hfirst : Reads (Bytes.readInto [0] 0 1) [m.getDescriptorByte.toByte] [m.getDescriptorByte.toByte] :=
    Bytes.reads_readInto rfl (Nat.zero_le _) (Nat.le_refl _)
  have hresize : Bytes.resize [m.getDescriptorByte.toByte] (1 + m.fields.length) =
      [m.getDescriptorByte.toByte] ++ List.replicate m.fields.length 0 := Bytes.resize_add _ _
  have hfields : Reads (([m.getDescriptorByte.toByte] ++ List.replicate m.fields.length 0 : Bytes).readInto 1
      (1 + m.fields.length)) m.fields ([m.getDescriptorByte.toByte] ++ m.fields) := Bytes.reads_readInto_zeros _ _
  unfold readHeader
  refine hfirst.bind ((reads_lift (Bytes.index_cons_zero _ _)).bind_nil ?_)
  rw [DescriptorByte.tryFrom_toByte]
  dsimp only
  rw [← m.length_fields, hresize, ← List.append_nil m.fields]
  refine Reads.bind ?_ (reads_pure _)
  rw [List.append_nil]
  exact hfields

/-- A body within the limit is read, and the message is parsed. -/
theorem reads_readBody (hlen : m.payloadLen < 2 ^ 32) (hmax : m.payloadLen ≤ maxPayloadSize) :
    Reads (readBody m.getDescriptorByte ([m.getDescriptorByte.toByte] ++ m.fields)) m.body m.received := by
  have hparse : Reads (lift (NetworkValue.deserialize m.frame) : ByteReader _) [] m.received :=
    reads_lift (NetworkValue.deserialize_frame hlen)
  unfold readBody
  refine (reads_lift (NetworkValue.bodyLen_fields hlen)).bind_nil ?_
  rw [if_neg (not_lt.mpr hmax), ← m.length_body]
  by_cases hpos : 0 < m.body.length
  · rw [if_pos hpos, ← m.length_fields]
    have hresize : Bytes.resize ([m.getDescriptorByte.toByte] ++ m.fields) (1 + m.fields.length + m.body.length) =
        [m.getDescriptorByte.toByte] ++ m.fields ++ List.replicate m.body.length 0 := by
      rw [← Bytes.resize_add, List.length_append]
      rfl
    have hbody : Reads (([m.getDescriptorByte.toByte] ++ m.fields ++ List.replicate m.body.length 0 : Bytes).readInto
        (1 + m.fields.length) (1 + m.fields.length + m.body.length)) m.body
        ([m.getDescriptorByte.toByte] ++ m.fields ++ m.body) := by
      have hread := Bytes.reads_readInto_zeros ([m.getDescriptorByte.toByte] ++ m.fields) m.body
      rw [List.length_append] at hread
      exact hread
    rw [hresize, ← List.append_nil m.body]
    refine Reads.bind ?_ hparse
    rw [List.append_nil]
    exact hbody
  · rw [if_neg hpos]
    have hempty : m.body = [] := List.length_eq_zero_iff.mp (Nat.eq_zero_of_not_pos hpos)
    rw [NetworkValue.frame, hempty, List.append_nil] at hparse
    rw [hempty]
    exact hparse

theorem reads_readSingleMessage (hlen : m.payloadLen < 2 ^ 32) (hmax : m.payloadLen ≤ maxPayloadSize) :
    Reads readSingleMessage m.frame m.received := by
  unfold readSingleMessage NetworkValue.frame
  rw [← List.append_assoc]
  exact (reads_readHeader m).bind (reads_readBody hlen hmax)

/-- A longer body is not read. -/
theorem fails_readSingleMessage (hlen : m.payloadLen < 2 ^ 32) (hmax : maxPayloadSize < m.payloadLen) :
    Fails (readSingleMessage : ByteReader (NetworkValue Payload)) ([m.getDescriptorByte.toByte] ++ m.fields)
      (exceedsMaximum m.payloadLen) := by
  unfold readSingleMessage
  rw [← List.append_nil ([m.getDescriptorByte.toByte] ++ m.fields)]
  refine (reads_readHeader m).bind_fails ?_
  unfold readBody
  refine (reads_lift (NetworkValue.bodyLen_fields hlen)).bind_fails ?_
  rw [if_pos hmax]
  exact fails_fail _

theorem starves_readSingleMessage : Starves (readSingleMessage : ByteReader (NetworkValue Payload)) :=
  ((Bytes.starves_readInto [0] (by decide)).bind _).bind _

end Reader

/-- What the reader makes of a stream of messages, however it is cut into chunks: it reads the messages up to the
first one with a body that is too long. -/
theorem readMessages_frames (ms : List (NetworkValue Payload)) (hlen : ∀ m ∈ ms, m.payloadLen < 2 ^ 32)
    {chunks : List Bytes} (hflat : chunks.flatten = (ms.map NetworkValue.frame).flatten) {fuel : Nat}
    (hfuel : ms.length < fuel) :
    readMessages fuel chunks =
      ((ms.takeWhile fun m => m.payloadLen ≤ maxPayloadSize).map NetworkValue.received,
        some (match ms.find? fun m => maxPayloadSize < m.payloadLen with
          | none => .starved []
          | some m => .failed (exceedsMaximum m.payloadLen))) := by
  have hreads : ∀ received : List (NetworkValue Payload), True → ∀ m ∈ ms,
      decide (m.payloadLen ≤ maxPayloadSize) = true →
        Reads (do
          let networkValue ← readSingleMessage
          pure (received ++ [networkValue])) m.frame (received ++ [m.received]) ∧ True := by
    intro received _ m hm hmax
    rw [← List.append_nil m.frame]
    exact ⟨(reads_readSingleMessage (hlen m hm) (of_decide_eq_true hmax)).bind (reads_pure _), trivial⟩
  have hfails : ∀ received : List (NetworkValue Payload), True → ∀ m ∈ ms,
      decide (m.payloadLen ≤ maxPayloadSize) = false → ∃ bad rest, m.frame = bad ++ rest ∧
        Fails (do
          let networkValue ← readSingleMessage
          pure (received ++ [networkValue])) bad (exceedsMaximum m.payloadLen) := by
    intro received _ m hm hmax
    refine ⟨_, m.body, (List.append_assoc _ _ _).symm, ?_⟩
    exact (fails_readSingleMessage (hlen m hm) (not_le.mp (of_decide_eq_false hmax))).bind _
  have hfold : ∀ received ms' : List (NetworkValue Payload),
      ms'.foldl (fun received m => received ++ [m.received]) received = received ++ ms'.map NetworkValue.received := by
    intro received ms'
    induction ms' generalizing received with
    | nil => exact (List.append_nil received).symm
    | cons m ms' ih => rw [List.foldl_cons, ih, List.append_assoc, List.map_cons, List.singleton_append]
  have hnot : ∀ m : NetworkValue Payload, decide (maxPayloadSize < m.payloadLen) =
      !decide (m.payloadLen ≤ maxPayloadSize) := fun m => by rw [← decide_not, decide_eq_decide, not_le]
  unfold readMessages
  rw [loop_frames (fun received => starves_readSingleMessage.bind _) ms hreads hfails trivial hflat hfuel, hfold]
  simp only [hnot, List.nil_append]
  refine congrArg (Prod.mk _) (congrArg some ?_)
  cases ms.find? fun m => !decide (m.payloadLen ≤ maxPayloadSize) with
  | none => rfl
  | some m => rfl

/-- The batches are the messages of the queue, in order. -/
theorem serializeAndWriteOutbound_eq (queue : List (Option (NetworkValue Payload))) :
    ∃ batches, serializeAndWriteOutbound queue = .ok batches ∧
      batches.flatten = (queue.reduceOption.map NetworkValue.frame).flatten :=
  Batch.write_eq _ _ queue fun m _ buf => congrArg Except.ok (m.serialize_eq buf)

/-- A message that no reader accepts. -/
def oversized : NetworkValue Payload := .job 0 0 (.bytes (List.replicate (maxPayloadSize + 1) 0))

/-- The writer sends the message, and the reader refuses it. -/
theorem oversized_not_read :
    oversized.payloadLen < 2 ^ 32 ∧ ∃ batches, serializeAndWriteOutbound [some oversized] = .ok batches ∧
      readMessages 2 batches = ([], some (.failed (exceedsMaximum (maxPayloadSize + 1)))) := by
  have hlen : oversized.payloadLen = maxPayloadSize + 1 := List.length_replicate
  have hlt : oversized.payloadLen < 2 ^ 32 := by
    rw [hlen]
    decide
  have hlong : maxPayloadSize < oversized.payloadLen := by
    rw [hlen]
    exact Nat.lt_succ_self _
  obtain ⟨batches, hbatches, hflat⟩ := serializeAndWriteOutbound_eq [some oversized]
  have hread := readMessages_frames [oversized] (List.forall_mem_singleton.mpr hlt) hflat (Nat.lt_succ_self 1)
  refine ⟨hlt, batches, hbatches, hread.trans ?_⟩
  rw [List.takeWhile_cons_of_neg (by simpa using hlong), List.find?_cons_of_pos (by simpa using hlong)]
  exact congrArg (fun len => ([], some (ReadEnd.failed (exceedsMaximum len)))) hlen

/-- **Workpool framing loses nothing.** Whatever the writer finds in its queue at each look, it writes all messages,
each in as many bytes as its `byte_len` says, and however the network cuts the stream into chunks, the reader reads
these messages back in order, and then waits for more. At the first message with a payload or a list of job ids of more
than `MAX_PAYLOAD_SIZE` bytes it ends with an error. -/
theorem workpool_framing (queue : List (Option (NetworkValue Payload)))
    (hlen : ∀ m ∈ queue.reduceOption, m.payloadLen < 2 ^ 32) :
    (∀ m ∈ queue.reduceOption, (m.serialize []).length = m.byteLen) ∧
      ∃ batches, serializeAndWriteOutbound queue = .ok batches ∧
        ∀ chunks : List Bytes, chunks.flatten = batches.flatten → ∀ fuel > queue.reduceOption.length,
          readMessages fuel chunks =
            ((queue.reduceOption.takeWhile fun m => m.payloadLen ≤ maxPayloadSize).map NetworkValue.received,
              some (match queue.reduceOption.find? fun m => maxPayloadSize < m.payloadLen with
                | none => .starved []
                | some m => .failed (exceedsMaximum m.payloadLen))) := by
  refine ⟨fun m _ => m.length_serialize, ?_⟩
  obtain ⟨batches, hbatches, hflat⟩ := serializeAndWriteOutbound_eq queue
  refine ⟨batches, hbatches, ?_⟩
  intro chunks hchunks fuel hfuel
  exact readMessages_frames _ hlen (hchunks.trans hflat) hfuel

/-- A job with a dynamic payload, the reply of a worker, and a cancellation. -/
def threeKinds : List (Option (NetworkValue Payload)) :=
  [some (.job 7 1 (.dyn ⟨[1, 2, 3], 3, rfl⟩)), none, some (.pendingJobsReply 1 [7, 8]), some (.cancel 8 1)]

theorem workpool_framing_threeKinds :
    ∃ batches, serializeAndWriteOutbound threeKinds = .ok batches ∧
      readMessages 4 batches =
        ([.job 7 1 (.bytes [1, 2, 3]), .pendingJobsReply 1 [7, 8], .cancel 8 1], some (.starved [])) := by
  obtain ⟨-, batches, hbatches, hall⟩ := workpool_framing threeKinds (by decide)
  exact ⟨batches, hbatches, hall batches rfl 4 (by decide)⟩

end AmpcCommon.Workpool
