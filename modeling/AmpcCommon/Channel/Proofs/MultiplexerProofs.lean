import AmpcCommon.Channel.Proofs.LengthProofs
import Mathlib.Data.List.ReduceOption
import Mathlib.Data.List.TakeWhile

/-!
# The multiplexer loses nothing

A message on a connection is its session id and its bytes (`Parcel.frame`). However the writer groups the messages
into packets, the packets are the frames one after the other (`handleOutboundTraffic_eq`); the reader takes one frame
off the stream at a time (`reads_handleOne`), with the length its descriptor and its length field give.
-/

namespace AmpcCommon.Channel

open Wire NetworkValue Stream

/-- A message for a session: the value that is sent, its bytes, and the value they are parsed to. -/
structure Parcel where
  sessionId : BitVec 32
  value : NetworkValue
  bytes : Bytes
  received : NetworkValue
  toNetwork_eq : value.toNetwork = .ok bytes
  deserialize_eq : deserialize bytes = .ok received

namespace Parcel

/-- The bytes of a message on the connection. -/
def frame (p : Parcel) : Bytes := LittleEndian.encode 4 p.sessionId.toNat ++ p.bytes

/-- What is put into the outbound queue. -/
def msg (p : Parcel) : OutboundMsg := (p.sessionId, p.value)

theorem pushMsg_eq (p : Parcel) (buf : Bytes) : pushMsg buf p.msg = .ok (buf ++ p.frame) := by
  unfold pushMsg frame
  rw [← List.append_assoc]
  exact serialize_append p.toNetwork_eq _

theorem sessionId_eq (p : Parcel) :
    BitVec.ofNat 32 (LittleEndian.decode (LittleEndian.encode 4 p.sessionId.toNat)) = p.sessionId := by
  rw [LittleEndian.decode_encode_of_lt p.sessionId.isLt, BitVec.ofNat_toNat, BitVec.setWidth_eq]

theorem framed (p : Parcel) : Framed p.bytes := deserialize_framed p.deserialize_eq

end Parcel

/-- Messages that survive the wire. -/
theorem exists_parcels {queue : List OutboundMsg} (hround : ∀ m ∈ queue, (m.2.toNetwork >>= deserialize) = .ok m.2) :
    ∃ ps : List Parcel, ps.map Parcel.msg = queue ∧ ∀ p ∈ ps, p.received = p.value := by
  induction queue with
  | nil => exact ⟨[], rfl, fun p hp => by cases hp⟩
  | cons m queue ih =>
    obtain ⟨ps, rfl, hvalue⟩ := ih fun m hm => hround m (List.mem_cons_of_mem _ hm)
    obtain ⟨bytes, hbytes, hparsed⟩ := Outcome.bind_eq_ok.mp (hround m List.mem_cons_self)
    refine ⟨⟨m.1, m.2, bytes, m.2, hbytes, hparsed⟩ :: ps, rfl, ?_⟩
    intro p hp
    obtain rfl | hp := List.mem_cons.mp hp
    · rfl
    · exact hvalue p hp

/-- The packets are the messages of the queue, in order. -/
theorem handleOutboundTraffic_eq (numSessions : Nat) {queue : List (Option OutboundMsg)} {ps : List Parcel}
    (hqueue : queue.reduceOption = ps.map Parcel.msg) :
    ∃ packets, handleOutboundTraffic numSessions queue = .ok packets ∧
      packets.flatten = (ps.map Parcel.frame).flatten := by
  let frame : OutboundMsg → Bytes := fun m => (pushMsg [] m).toOption.getD []
  have hframe : ∀ p : Parcel, frame p.msg = p.frame := by
    intro p
    show (pushMsg [] p.msg).toOption.getD [] = _
    rw [p.pushMsg_eq]
    rfl
  have hpush : ∀ m ∈ queue.reduceOption, ∀ buf, pushMsg buf m = .ok (buf ++ frame m) := by
    rw [hqueue]
    intro m hm buf
    obtain ⟨p, -, rfl⟩ := List.mem_map.mp hm
    rw [p.pushMsg_eq, hframe]
  obtain ⟨packets, hpackets, hflat⟩ := Batch.write_eq _ _ queue hpush
  refine ⟨packets, hpackets, hflat.trans ?_⟩
  rw [hqueue, List.map_map]
  exact congrArg List.flatten (List.map_congr_left fun p _ => hframe p)

/-! ## The reader -/

namespace InboundTask

variable {buf bs : Bytes}

theorem reads_readRest {offset len : Nat} (hlen : bs.length = len - offset) (hoffset : offset ≤ len)
    (hbuf : offset ≤ buf.length) :
    Reads (readRest buf offset len) bs (buf.take offset ++ bs ++ buf.drop len, len) := by
  unfold readRest
  dsimp only
  rw [← List.append_nil bs]
  by_cases hshort : buf.length < len
  · -- the buffer is enlarged
    rw [if_pos hshort]
    have hroom : len ≤ (buf ++ List.replicate (len - buf.length) 0).length := by
      rw [List.length_append, List.length_replicate]
      omega
    have hread := Bytes.reads_readInto hlen hoffset hroom
    rw [List.take_append_of_le_length hbuf, List.drop_eq_nil_of_le (by simp; omega), List.append_nil] at hread
    refine hread.bind ?_
    rw [List.append_nil, List.drop_eq_nil_of_le hshort.le, List.append_nil]
    exact reads_pure _
  · rw [if_neg hshort]
    refine (Bytes.reads_readInto hlen hoffset (not_lt.mp hshort)).bind ?_
    rw [List.append_nil]
    exact reads_pure _

/-- A message is read into the front of the buffer. -/
theorem reads_readMessage (hbuf : 5 ≤ buf.length) (hframed : Framed bs) :
    Reads (readMessage buf) bs (bs ++ buf.drop bs.length, bs.length) := by
  obtain ⟨d, tail, rfl, hlen⟩ := hframed
  have hfirst : Reads (Bytes.readInto buf 0 1) [d.toByte] (d.toByte :: buf.drop 1) :=
    Bytes.reads_readInto rfl (Nat.zero_le _) (by omega)
  unfold readMessage
  refine hfirst.bind ?_
  refine (reads_lift (Bytes.index_cons_zero _ _)).bind_nil ?_
  rw [DescriptorByte.tryFrom_toByte]
  dsimp only
  split_ifs at hlen ⊢ with hfield
  · -- the length field, then what it counts
    obtain ⟨htail, hlen⟩ := hlen
    have hfour : (tail.take 4).length = 4 := by
      rw [List.length_take]
      omega
    have hbuf' : 5 ≤ (d.toByte :: buf.drop 1).length := by
      rw [List.length_cons, List.length_drop]
      omega
    have hread : Reads (Bytes.readInto (d.toByte :: buf.drop 1) 1 5) (tail.take 4) _ :=
      Bytes.reads_readInto hfour (by decide) hbuf'
    have hinto : (d.toByte :: buf.drop 1).take 1 ++ tail.take 4 ++ (d.toByte :: buf.drop 1).drop 5 =
        d.toByte :: (tail.take 4 ++ buf.drop 5) := by
      simp
    rw [hinto] at hread
    have hvalue : readLe 4 (d.toByte :: (tail.take 4 ++ buf.drop 5)) 1 = .ok (LittleEndian.decode (tail.take 4)) := by
      have hlong : 4 ≤ (tail.take 4 ++ buf.drop 5).length := by
        rw [List.length_append]
        omega
      refine (readU32_cons_eq hlong).trans ?_
      rw [List.take_left' hfour]
    have hrest : Reads (readRest (d.toByte :: (tail.take 4 ++ buf.drop 5)) 5 (d.toByte :: tail).length)
        (tail.drop 4) _ :=
      reads_readRest (by simp) (by simpa using htail) (by simp; omega)
    have hbuffer : (d.toByte :: (tail.take 4 ++ buf.drop 5)).take 5 ++ tail.drop 4 ++
        (d.toByte :: (tail.take 4 ++ buf.drop 5)).drop (d.toByte :: tail).length =
        d.toByte :: tail ++ buf.drop (d.toByte :: tail).length := by
      have hdrop : (d.toByte :: (tail.take 4 ++ buf.drop 5)).drop (d.toByte :: tail).length =
          buf.drop (d.toByte :: tail).length := by
        obtain ⟨m, hm⟩ := Nat.exists_eq_add_of_le htail
        rw [List.length_cons, hm, List.drop_succ_cons, ← List.drop_drop, List.drop_left' hfour, List.drop_drop]
        congr 1
        omega
      rw [hdrop, List.take_succ_cons, List.take_left' hfour, List.cons_append, List.take_append_drop]
    rw [hbuffer] at hrest
    show Reads _ tail _
    rw [← List.take_append_drop 4 tail]
    refine hread.bind ((reads_lift hvalue).bind_nil ?_)
    rw [List.take_append_drop, ← hlen]
    exact hrest
  · have hrest : Reads (readRest (d.toByte :: buf.drop 1) 1 (d.toByte :: tail).length) tail _ :=
      reads_readRest (by simp) (by simp) (by simp)
    have hbuffer : (d.toByte :: buf.drop 1).take 1 ++ tail ++
        (d.toByte :: buf.drop 1).drop (d.toByte :: tail).length =
        d.toByte :: tail ++ buf.drop (d.toByte :: tail).length := by
      simp
    rw [hbuffer] at hrest
    rw [← hlen]
    exact hrest

/-- Whether the task can go on after a message for the session: the session has not dropped its queue. -/
def accepts : Option Inbox → Bool
  | some .dropped => false
  | _ => true

/-- The task once it has worked through a message. -/
def handled (task : InboundTask) (p : Parcel) : InboundTask where
  buf := p.bytes ++ task.buf.drop p.bytes.length
  inboundTx :=
    match task.inboundTx p.sessionId with
    | some (.open values) => Function.update task.inboundTx p.sessionId (some (.open (values ++ [p.received])))
    | _ => task.inboundTx

/-- The message is read into the front of the buffer, and forwarded from there. -/
theorem forward_handled (task : InboundTask) (p : Parcel) :
    ({ task with buf := p.bytes ++ task.buf.drop p.bytes.length } : InboundTask).forward p.sessionId p.bytes.length =
      if accepts (task.inboundTx p.sessionId) then .ok (task.handled p)
      else .bail "failed to forward message" := by
  have hslice : (p.bytes ++ task.buf.drop p.bytes.length).slice 0 p.bytes.length = .ok p.bytes := by
    rw [Bytes.slice_eq_ok (Nat.zero_le _) (by simp)]
    simp
  unfold forward handled
  dsimp only
  cases hinbox : task.inboundTx p.sessionId with
  | none => rfl
  | some inbox =>
    dsimp only
    rw [hslice, Outcome.ok_bind, p.deserialize_eq]
    cases inbox with
    | «open» values => rfl
    | dropped => rfl

theorem reads_handleOne {task : InboundTask} (p : Parcel) (hbuf : 5 ≤ task.buf.length)
    (haccepts : accepts (task.inboundTx p.sessionId) = true) : Reads (handleOne task) p.frame (task.handled p) := by
  unfold handleOne Parcel.frame
  refine (reads_readExact (LittleEndian.length_encode 4 _)).bind ?_
  rw [p.sessionId_eq, ← List.append_nil p.bytes]
  refine (reads_readMessage hbuf p.framed).bind (reads_lift ?_)
  rw [forward_handled, if_pos haccepts]

theorem fails_handleOne {task : InboundTask} (p : Parcel) (hbuf : 5 ≤ task.buf.length)
    (haccepts : accepts (task.inboundTx p.sessionId) = false) :
    Fails (handleOne task) p.frame (.error "failed to forward message") := by
  unfold handleOne Parcel.frame
  refine (reads_readExact (LittleEndian.length_encode 4 _)).bind_fails ?_
  rw [p.sessionId_eq, ← List.append_nil p.bytes]
  refine (reads_readMessage hbuf p.framed).bind_fails (fails_lift ?_)
  rw [forward_handled, haccepts]
  rfl

theorem starves_handleOne (task : InboundTask) : Starves (handleOne task) :=
  (starves_readExact (by decide)).bind _

theorem accepts_handled (task : InboundTask) (p : Parcel) (id : BitVec 32) :
    accepts ((task.handled p).inboundTx id) = accepts (task.inboundTx id) := by
  unfold handled
  dsimp only
  cases hinbox : task.inboundTx p.sessionId with
  | none => rfl
  | some inbox =>
    cases inbox with
    | dropped => rfl
    | «open» values =>
      dsimp only
      by_cases hid : id = p.sessionId
      · subst hid
        rw [Function.update_self, hinbox]
        rfl
      · rw [Function.update_of_ne hid]

theorem length_handled {task : InboundTask} (p : Parcel) (hbuf : 5 ≤ task.buf.length) :
    5 ≤ (task.handled p).buf.length := by
  show 5 ≤ (p.bytes ++ task.buf.drop p.bytes.length).length
  rw [List.length_append, List.length_drop]
  omega

end InboundTask

/-- The queue of a session with more values put into it. -/
def Inbox.push (inbox : Inbox) (received : List NetworkValue) : Inbox :=
  match inbox with
  | .open values => .open (values ++ received)
  | .dropped => .dropped

theorem Inbox.push_push (inbox : Inbox) (vs ws : List NetworkValue) :
    (inbox.push vs).push ws = inbox.push (vs ++ ws) := by
  cases inbox with
  | dropped => rfl
  | «open» values => exact congrArg Inbox.open (List.append_assoc values vs ws)

theorem Inbox.push_nil (inbox : Inbox) : inbox.push [] = inbox := by
  cases inbox with
  | dropped => rfl
  | «open» values => exact congrArg Inbox.open (List.append_nil values)

namespace InboundTask

theorem handled_inboundTx (task : InboundTask) (p : Parcel) (id : BitVec 32) :
    (task.handled p).inboundTx id =
      (task.inboundTx id).map (Inbox.push · (if p.sessionId = id then [p.received] else [])) := by
  have hother : ∀ inbox : Option Inbox, inbox = inbox.map (Inbox.push · []) := by
    intro inbox
    cases inbox with
    | none => rfl
    | some inbox => exact congrArg some inbox.push_nil.symm
  unfold handled
  dsimp only
  by_cases hid : p.sessionId = id
  · subst hid
    rw [if_pos rfl]
    cases hinbox : task.inboundTx p.sessionId with
    | none => exact hinbox
    | some inbox =>
      cases inbox with
      | dropped => exact hinbox
      | «open» values => exact Function.update_self _ _ _
  · rw [if_neg hid, ← hother]
    cases hinbox : task.inboundTx p.sessionId with
    | none => rfl
    | some inbox =>
      cases inbox with
      | dropped => rfl
      | «open» values => exact Function.update_of_ne (Ne.symm hid) _ _

/-- Every session has its own values, in the order sent. -/
theorem foldl_handled_inboundTx (ps : List Parcel) (task : InboundTask) (id : BitVec 32) :
    (ps.foldl handled task).inboundTx id =
      (task.inboundTx id).map (Inbox.push · ((ps.filter (·.sessionId = id)).map Parcel.received)) := by
  induction ps generalizing task with
  | nil =>
    cases hinbox : task.inboundTx id with
    | none => exact hinbox
    | some inbox => exact hinbox.trans (congrArg some inbox.push_nil.symm)
  | cons p ps ih =>
    rw [List.foldl_cons, ih, handled_inboundTx, Option.map_map]
    refine congrArg (Option.map · _) (funext fun inbox => ?_)
    show (inbox.push _).push _ = _
    rw [Inbox.push_push]
    by_cases hid : p.sessionId = id
    · rw [if_pos hid, List.filter_cons_of_pos (by simpa using hid)]
      rfl
    · rw [if_neg hid, List.filter_cons_of_neg (by simpa using hid)]
      rfl

end InboundTask

/-- What the inbound task makes of a stream of messages, however it is cut into chunks: it works through the
messages up to the first one for a session that has dropped its queue. -/
theorem handleInboundTraffic_parcels (inboundTx : BitVec 32 → Option Inbox) (ps : List Parcel) {chunks : List Bytes}
    (hflat : chunks.flatten = (ps.map Parcel.frame).flatten) {fuel : Nat} (hfuel : ps.length < fuel) :
    handleInboundTraffic inboundTx fuel chunks =
      ((ps.takeWhile fun p => InboundTask.accepts (inboundTx p.sessionId)).foldl InboundTask.handled
          ⟨List.replicate readBufSize 0, inboundTx⟩,
        some (if ps.all fun p => InboundTask.accepts (inboundTx p.sessionId) then .starved []
          else .failed (.error "failed to forward message"))) := by
  let Inv : InboundTask → Prop := fun task =>
    5 ≤ task.buf.length ∧ ∀ id, InboundTask.accepts (task.inboundTx id) = InboundTask.accepts (inboundTx id)
  have hreads : ∀ task, Inv task → ∀ p ∈ ps, InboundTask.accepts (inboundTx p.sessionId) = true →
      Reads (InboundTask.handleOne task) p.frame (task.handled p) ∧ Inv (task.handled p) := by
    intro task hinv p _ haccepts
    refine ⟨InboundTask.reads_handleOne p hinv.1 ((hinv.2 _).trans haccepts), InboundTask.length_handled p hinv.1, ?_⟩
    intro id
    exact (InboundTask.accepts_handled task p id).trans (hinv.2 id)
  have hfails : ∀ task, Inv task → ∀ p ∈ ps, InboundTask.accepts (inboundTx p.sessionId) = false →
      ∃ bad rest, p.frame = bad ++ rest ∧
        Fails (InboundTask.handleOne task) bad (.error "failed to forward message") := by
    intro task hinv p _ haccepts
    exact ⟨p.frame, [], (List.append_nil _).symm, InboundTask.fails_handleOne p hinv.1 ((hinv.2 _).trans haccepts)⟩
  have hinit : Inv ⟨List.replicate readBufSize 0, inboundTx⟩ := by
    refine ⟨?_, fun id => rfl⟩
    rw [List.length_replicate]
    decide
  unfold handleInboundTraffic
  rw [loop_frames InboundTask.starves_handleOne ps hreads hfails hinit hflat hfuel]
  refine congrArg (Prod.mk _) (congrArg some ?_)
  by_cases hall : (ps.all fun p => InboundTask.accepts (inboundTx p.sessionId)) = true
  · rw [if_pos hall, List.find?_eq_none.mpr fun p hp => by simp [List.all_eq_true.mp hall p hp]]
  · rw [if_neg hall]
    cases hfind : ps.find? fun p => !InboundTask.accepts (inboundTx p.sessionId) with
    | none =>
      refine absurd (List.all_eq_true.mpr ?_) hall
      intro p hp
      simpa using List.find?_eq_none.mp hfind p hp
    | some p => rfl

/-- **Multiplexed framing loses nothing.** Whatever the outbound task finds in its queue at each look, it writes all
messages, and however the network cuts the stream into chunks, the inbound task reads these messages back, one after
the other, and each session it knows gets its own values in the order sent. It waits for more at the end, unless a
session has dropped its queue: then it ends at the first message for such a session. -/
theorem multiplexer_delivers (numSessions : Nat) (queue : List (Option OutboundMsg))
    (inboundTx : BitVec 32 → Option Inbox)
    (hround : ∀ m ∈ queue.reduceOption, (m.2.toNetwork >>= deserialize) = .ok m.2) :
    ∃ packets, handleOutboundTraffic numSessions queue = .ok packets ∧
      ∀ chunks : List Bytes, chunks.flatten = packets.flatten → ∀ fuel > queue.reduceOption.length,
        ∃ task, handleInboundTraffic inboundTx fuel chunks =
            (task, some (if queue.reduceOption.all fun m => InboundTask.accepts (inboundTx m.1) then .starved []
              else .failed (.error "failed to forward message"))) ∧
          ∀ id, task.inboundTx id = (inboundTx id).map (Inbox.push ·
            (((queue.reduceOption.takeWhile fun m => InboundTask.accepts (inboundTx m.1)).filter
              (·.1 = id)).map (·.2))) := by
  obtain ⟨ps, hps, hvalue⟩ := exists_parcels hround
  obtain ⟨packets, hpackets, hflat⟩ := handleOutboundTraffic_eq numSessions hps.symm
  refine ⟨packets, hpackets, ?_⟩
  rw [← hps]
  intro chunks hchunks fuel hfuel
  rw [List.length_map] at hfuel
  have hinbound := handleInboundTraffic_parcels inboundTx ps (hchunks.trans hflat) hfuel
  rw [hinbound, List.all_map]
  refine ⟨_, rfl, ?_⟩
  intro id
  rw [InboundTask.foldl_handled_inboundTx]
  refine congrArg (Option.map · _) (funext fun inbox => congrArg _ ?_)
  rw [List.takeWhile_map, List.filter_map, List.map_map]
  refine List.map_congr_left fun p hp => ?_
  exact hvalue p ((List.takeWhile_sublist _).mem (List.mem_of_mem_filter hp))

/-- Messages for two sessions of which the peer knows one. -/
def twoSessions : List (Option OutboundMsg) :=
  [some (1, .ringElementBit true), none, some (9, .vecRing16 [7, 8]), some (1, .bytes [1, 2, 3])]

theorem multiplexer_delivers_twoSessions :
    ∃ packets, handleOutboundTraffic 2 twoSessions = .ok packets ∧
      ∃ task, handleInboundTraffic (fun id => if id = 1 then some (.open []) else none) 4 packets =
          (task, some (.starved [])) ∧
        task.inboundTx 1 = some (.open [.ringElementBit true, .bytes [1, 2, 3]]) ∧ task.inboundTx 9 = none := by
  have hround : ∀ m ∈ twoSessions.reduceOption, (m.2.toNetwork >>= deserialize) = .ok m.2 := by
    show ∀ m ∈ ([(1, .ringElementBit true), (9, .vecRing16 [7, 8]), (1, .bytes [1, 2, 3])] : List OutboundMsg), _
    simp only [List.forall_mem_cons]
    exact ⟨rfl, rfl, rfl, fun _ h => absurd h List.not_mem_nil⟩
  obtain ⟨packets, hpackets, hall⟩ :=
    multiplexer_delivers 2 twoSessions (fun id => if id = 1 then some (.open []) else none) hround
  obtain ⟨task, htask, hinboxes⟩ := hall packets rfl 4 (by decide)
  exact ⟨packets, hpackets, task, htask, hinboxes 1, hinboxes 9⟩

end AmpcCommon.Channel
