import AmpcCommon.Wire.NetworkValue
import Mathlib.Logic.Function.Basic

/-!
# Striped sessions

The model of the send and receive paths of `TcpSession` in `network/mpc/handle/session/mod.rs`, for one peer of a
session: a message is cut into fragments that travel over all connections to the peer, and the receiver puts them
together again.

A call returns its result together with the state it leaves behind, since an error does not undo what the call has
changed. The two ends and what is on its way between them form a `StripedChannel`; sending does not wait, and a
`receive` only waits for the next fragment of its session, which is where a timeout can end it. A connection carries
the bytes of the values that are put on it, and the other end parses them.
-/

namespace AmpcCommon.Channel

open Wire

/-- `STRIPE_MAGIC`, the text `AMPCSTRP`. -/
def stripeMagic : Bytes := [0x41, 0x4D, 0x50, 0x43, 0x53, 0x54, 0x52, 0x50]

/-- `STRIPE_HEADER_BYTES` -/
def stripeHeaderBytes : Nat := 32

/-- `MIN_BYTES_PER_STRIPE` -/
def minBytesPerStripe : Nat := 256 * 1024

/-- `Fragment` -/
structure Fragment where
  sequence : Nat
  totalLen : Nat
  index : Nat
  count : Nat
  payload : Bytes
  deriving DecidableEq

namespace Fragment

/-- `Fragment::encode` -/
def encode (sequence totalLen index count : Nat) (payload : Bytes) : Outcome NetworkValue :=
  if 2 ^ 64 ≤ totalLen ∨ 2 ^ 32 ≤ index ∨ 2 ^ 32 ≤ count then
    .bail "out of range integral type conversion attempted"
  else
    .ok (.bytes (stripeMagic ++ LittleEndian.encode 8 sequence ++ LittleEndian.encode 8 totalLen ++
      LittleEndian.encode 4 index ++ LittleEndian.encode 4 count ++ payload))

/-- `Fragment::decode` -/
def decode : NetworkValue → Outcome Fragment
  | .bytes bytes => do
    if bytes.length < stripeHeaderBytes then
      .bail "striped MPC fragment is shorter than its header"
    else if (← bytes.slice 0 stripeMagic.length) ≠ stripeMagic then
      .bail "invalid striped MPC fragment magic"
    else
      let sequence ← readLe 8 bytes 8
      let totalLen ← readLe 8 bytes 16
      let index ← readLe 4 bytes 24
      let count ← readLe 4 bytes 28
      if count = 0 then .bail "striped MPC fragment has zero chunks"
      else if count ≤ index then .bail "striped MPC fragment index is out of range"
      else if totalLen = 0 then .bail "striped MPC fragment has an empty message"
      else return { sequence, totalLen, index, count, payload := bytes.drop stripeHeaderBytes }
  | _ => .bail "striped MPC session received an unframed value"

end Fragment

/-- `Assembly`: the fragments of one message that have arrived. -/
structure Assembly where
  totalLen : Nat
  chunks : List (Option Bytes)
  received : Nat
  receivedLen : Nat
  deriving DecidableEq

namespace Assembly

/-- `Assembly::new` -/
def new (fragment : Fragment) : Assembly where
  totalLen := fragment.totalLen
  chunks := List.replicate fragment.count none
  received := 0
  receivedLen := 0

/-- `Assembly::insert` -/
def insert (self : Assembly) (fragment : Fragment) : Assembly × Outcome Unit :=
  if ¬ (self.totalLen = fragment.totalLen ∧ self.chunks.length = fragment.count) then
    (self, .bail "inconsistent striped MPC fragment metadata")
  else match self.chunks[fragment.index]? with
    | none => (self, .panicked "index out of bounds")
    | some (some _) => (self, .bail "duplicate striped MPC fragment")
    | some none =>
      let self := { self with
        received := self.received + 1
        receivedLen := self.receivedLen + fragment.payload.length }
      if self.totalLen < self.receivedLen then
        -- the counters stay as they are now
        (self, .bail "striped MPC fragments exceed declared message length")
      else
        ({ self with chunks := self.chunks.set fragment.index (some fragment.payload) }, .ok ())

/-- `is_complete` -/
def isComplete (self : Assembly) : Bool := self.received = self.chunks.length

/-- `assemble` -/
def assemble (self : Assembly) : Outcome NetworkValue :=
  if ¬ self.isComplete then .bail "striped MPC message is incomplete"
  else if self.receivedLen ≠ self.totalLen then .bail "striped MPC message length mismatch"
  else do
    let chunks ← self.chunks.mapM fun chunk =>
      match chunk with
      | some chunk => .ok chunk
      | none => .bail "missing striped MPC fragment"
    NetworkValue.deserialize chunks.flatten

end Assembly

/-- `PeerIo`: what a session keeps about one peer. `connections` is the number of its outgoing streams. -/
structure PeerIo where
  connections : Nat
  nextSendSequence : Nat
  nextReceiveSequence : Nat
  pending : Nat → Option Assembly

namespace PeerIo

/-- The state of a peer in a new session. -/
def new (connections : Nat) : PeerIo where
  connections := connections
  nextSendSequence := 0
  nextReceiveSequence := 0
  pending := fun _ => none

/-- The loop of `TcpSession::send`: the fragments of a message, each with the connection it is put on. -/
def stripes (connections sequence stripeCount : Nat) (serialized : Bytes) : Outcome (List (Nat × NetworkValue)) :=
  let firstConnection := sequence % connections
  let stripeBaseLen := serialized.length / stripeCount
  let extraBytes := serialized.length % stripeCount
  (List.range stripeCount).mapM fun index => do
    let start := index * stripeBaseLen + min index extraBytes
    let stop := start + stripeBaseLen + if index < extraBytes then 1 else 0
    let payload ← serialized.slice start stop
    let connection := (firstConnection + index) % connections
    let fragment ← Fragment.encode sequence serialized.length index stripeCount payload
    return (connection, fragment)

/-- `TcpSession::send`: what is put on which connection. -/
def send (peer : PeerIo) (value : NetworkValue) : PeerIo × Outcome (List (Nat × NetworkValue)) :=
  if peer.connections = 0 then (peer, .bail "striped MPC session has no connections")
  else if peer.connections = 1 then (peer, .ok [(0, value)])
  else match value.intoNetwork with
    | .error e => (peer, .error e)
    | .ok serialized =>
      let stripeCount :=
        min peer.connections (max ((serialized.length + minBytesPerStripe - 1) / minBytesPerStripe) 1)
      let sequence := peer.nextSendSequence
      if 2 ^ 64 ≤ sequence + 1 then (peer, .bail "striped MPC send sequence exhausted")
      else
        ({ peer with nextSendSequence := sequence + 1 },
          stripes peer.connections sequence stripeCount serialized)

/-- `take_completed` -/
def takeCompleted (peer : PeerIo) : PeerIo × Outcome (Option NetworkValue) :=
  let sequence := peer.nextReceiveSequence
  match peer.pending sequence with
  | none => (peer, .ok none)
  | some assembly =>
    if ¬ assembly.isComplete then (peer, .ok none)
    else
      let peer := { peer with pending := Function.update peer.pending sequence none }
      if 2 ^ 64 ≤ sequence + 1 then (peer, .bail "striped MPC receive sequence exhausted")
      else ({ peer with nextReceiveSequence := sequence + 1 }, assembly.assemble.map some)

/-- The rest of the loop of `TcpSession::receive`, once a value has come in. -/
def accept (maxFragments : Nat) (peer : PeerIo) (value : NetworkValue) : PeerIo × Outcome Unit :=
  match Fragment.decode value with
  | .error e => (peer, .error e)
  | .ok fragment =>
    if maxFragments < fragment.count then
      (peer, .bail "striped MPC message exceeds configured connection count")
    else if fragment.sequence < peer.nextReceiveSequence then
      (peer, .bail "received a stale striped MPC message")
    else
      let assembly := (peer.pending fragment.sequence).getD (.new fragment)
      let (assembly, result) := assembly.insert fragment
      ({ peer with pending := Function.update peer.pending fragment.sequence (some assembly) }, result)

end PeerIo

/-- How a call of `receive` ended: it timed out, or it returned. -/
inductive ReceiveResult where
  | timeout
  | returned (result : Outcome NetworkValue)

/-- The result of a call that did not time out. -/
def ReceiveResult.returned? : ReceiveResult → Option (Outcome NetworkValue)
  | timeout => none
  | returned result => some result

/-- One direction between two peers: the end that sends, what is on the connections, oldest first, the queue of the
receiving session, and the end that receives. `receiving` says that a call of `receive` waits for a fragment;
`sent` and `results` are the calls so far. -/
structure StripedChannel where
  sender : PeerIo
  streams : List (List NetworkValue)
  inbound : List NetworkValue
  receiver : PeerIo
  /-- `num_connections` of the configuration of the receiving session -/
  maxFragments : Nat
  receiving : Bool
  sent : List (NetworkValue × Outcome Unit)
  results : List ReceiveResult

inductive StripedEvent where
  | send (value : NetworkValue)
  /-- The oldest value on connection `c` reaches the queue of the receiving session. -/
  | arrive (c : Nat)
  /-- `receive` is called. -/
  | call
  /-- The call that waits takes a value from the queue. -/
  | recv
  | timeout

/-- The value that is sent. -/
def StripedEvent.sent? : StripedEvent → Option NetworkValue
  | send value => some value
  | _ => none

namespace StripedChannel

/-- A channel over `n` connections. -/
def new (n : Nat) : StripedChannel where
  sender := .new n
  streams := List.replicate n []
  inbound := []
  receiver := .new n
  maxFragments := n
  receiving := false
  sent := []
  results := []

/-- What a value is at the other end of a connection, where its bytes have been parsed. -/
def transport (value : NetworkValue) : Outcome NetworkValue := value.toNetwork >>= NetworkValue.deserialize

/-- Put the values on their connections. -/
def put (streams : List (List NetworkValue)) (fragments : List (Nat × NetworkValue)) : List (List NetworkValue) :=
  fragments.foldl (fun streams p => streams.modify p.1 (· ++ [p.2])) streams

/-- The call of `receive` ends. -/
def finish (s : StripedChannel) (result : ReceiveResult) : StripedChannel :=
  { s with receiving := false, results := s.results ++ [result] }

/-- `receive` from the top of its loop to the point where it waits. -/
def poll (s : StripedChannel) : StripedChannel :=
  let (receiver, result) := s.receiver.takeCompleted
  match result with
  | .error e => { s with receiver }.finish (.returned (.error e))
  | .ok (some value) => { s with receiver }.finish (.returned (.ok value))
  | .ok none => { s with receiver, receiving := true }

/-- One step of the channel. -/
def step (s : StripedChannel) : StripedEvent → Option StripedChannel
  | .send value =>
    let (sender, result) := s.sender.send value
    match result with
    | .error e => some { s with sender, sent := s.sent ++ [(value, .error e)] }
    | .ok fragments =>
      some { s with sender, streams := put s.streams fragments, sent := s.sent ++ [(value, .ok ())] }
  | .arrive c =>
    match s.streams[c]? with
    | some (value :: rest) =>
      match transport value with
      | .ok value => some { s with streams := s.streams.set c rest, inbound := s.inbound ++ [value] }
      -- the connection is given up
      | .error _ => none
    | _ => none
  | .call =>
    if s.receiving then none
    -- with one connection, `receive` waits for the value itself
    else if s.receiver.connections = 1 then some { s with receiving := true }
    else some s.poll
  | .recv =>
    match s.receiving, s.inbound with
    | true, value :: rest =>
      if s.receiver.connections = 1 then some ({ s with inbound := rest }.finish (.returned (.ok value)))
      else
        let (receiver, result) := s.receiver.accept s.maxFragments value
        match result with
        | .error e => some ({ s with inbound := rest, receiver }.finish (.returned (.error e)))
        | .ok () => some { s with inbound := rest, receiver }.poll
    | _, _ => none
  | .timeout => if s.receiving then some (s.finish .timeout) else none

end StripedChannel

end AmpcCommon.Channel
