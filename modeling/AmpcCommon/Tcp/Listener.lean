import AmpcCommon.Tcp.Handshake
import AmpcCommon.Base.Transition
import Mathlib.Data.List.AList
import Mathlib.Data.Finset.Insert

/-!
# The accept loop

The model of `accept_loop` in `connection/listener.rs`: a table of the requests that wait for a connection, and the
streams that are accepted for them. The library that verifies certificates is a parameter.
-/

namespace AmpcCommon.Tcp

/-- The verification of certificates, at a given time. -/
structure WebPki where
  /-- `RootCertStore::add` takes the certificate. -/
  addRoot : Bytes → Bool
  /-- `WebPkiClientVerifier::builder(..).build()` succeeds for the store with this root. -/
  build : Bytes → Bool
  /-- `verify_client_cert` for a root, a leaf and its intermediates succeeds. -/
  verifyClientCert : Bytes → Bytes → List Bytes → Nat → Bool

/-- `RuntimeTlsConfig` -/
structure RuntimeTlsConfig where
  peerCerts : AList fun _ : Identity => Bytes
  validatePeerIds : Bool

/-- `is_chain_anchored_to_root` -/
def isChainAnchoredToRoot (pki : WebPki) (now : Nat) (certChain : List Bytes) (expectedRootDer : Bytes) : Bool :=
  if ¬ pki.addRoot expectedRootDer then false
  else if ¬ pki.build expectedRootDer then false
  else
    match certChain with
    | [] => false
    | endEntity :: intermediates => pki.verifyClientCert expectedRootDer endEntity intermediates now

/-- Whether the certificate of a stream is the one its claimed identity should have, if this is checked. -/
def validPeer (pki : WebPki) (tls : Option RuntimeTlsConfig) (now : Nat) (peerId : Identity) (stream : Stream) :
    Bool :=
  match tls with
  | none => true
  | some tls =>
    if tls.validatePeerIds then
      ((tls.peerCerts.lookup peerId).map fun expectedRoot =>
        (stream.maybeTlsCertChain.map fun chain => isChainAnchoredToRoot pki now chain expectedRoot).getD false).getD
          false
    else true

/-- The accept loop, with what has become of the requests and streams. A request is known by its number, which stands
for the channel its requester waits on, and so is a stream. -/
structure Listener where
  connectionRequests : AList fun _ : Identity => AList fun _ : ConnectionId => Nat
  /-- The peer and the connection of the requests so far. -/
  requests : List (Identity × ConnectionId)
  /-- The streams accepted so far, and when. -/
  streams : List (Stream × Nat)
  /-- Which streams were sent to which requesters. -/
  given : List (Nat × Nat)
  /-- Which streams were dropped because their requesters had gone. -/
  dropped : List (Nat × Nat)
  closed : List Nat
  /-- The requests whose requesters have gone. -/
  gone : Finset Nat
  running : Bool

/-- What happens to the loop. -/
inductive ListenerAction where
  | request (peerId : Identity) (connectionId : ConnectionId)
  | accept (stream : Stream) (now : Nat)
  | acceptError
  /-- A requester drops its end of the channel. -/
  | leave (request : Nat)
  /-- The command channel is closed, or shutdown is requested. -/
  | stop

namespace Listener

def init : Listener where
  connectionRequests := ∅
  requests := []
  streams := []
  given := []
  dropped := []
  closed := []
  gone := ∅
  running := true

/-- A connection request is entered, and replaces one with the same key. -/
def register (peerId : Identity) (connectionId : ConnectionId) (s : Listener) : Listener :=
  let peerMap := (s.connectionRequests.lookup peerId).getD ∅
  { s with
    connectionRequests := s.connectionRequests.insert peerId (peerMap.insert connectionId s.requests.length)
    requests := s.requests ++ [(peerId, connectionId)] }

/-- The request with a key is taken out of the table. -/
def takeRequest (peerId : Identity) (connectionId : ConnectionId) (s : Listener) : Option Nat × Listener :=
  match s.connectionRequests.lookup peerId with
  | none => (none, s)
  | some peerMap =>
    match peerMap.lookup connectionId with
    | none => (none, s)
    | some rsp =>
      (some rsp, { s with connectionRequests := s.connectionRequests.insert peerId (peerMap.erase connectionId) })

/-- `stream.close()` -/
def close (stream : Nat) (s : Listener) : Listener := { s with closed := s.closed ++ [stream] }

/-- `rsp.send(stream)` -/
def send (rsp stream : Nat) (s : Listener) : Listener :=
  if rsp ∈ s.gone then { s with dropped := s.dropped ++ [(stream, rsp)] }
  else { s with given := s.given ++ [(stream, rsp)] }

variable (pki : WebPki) (tls : Option RuntimeTlsConfig)

/-- What the loop does with the stream it has accepted as number `id`. -/
def handle (id : Nat) (stream : Stream) (now : Nat) (s : Listener) : Listener :=
  match inbound stream with
  | .error _ => s.close id
  | .ok ((peerId, connectionId), stream) =>
    if ¬ validPeer pki tls now peerId stream then s.close id
    else
      match s.takeRequest peerId connectionId with
      | (none, s) => s.close id
      | (some rsp, s) =>
        match inboundOk stream with
        | .error _ => s.close id
        | .ok _ => s.send rsp id

/-- What the loop does in a turn. -/
def act (s : Listener) : ListenerAction → Listener
  | .request peerId connectionId => s.register peerId connectionId
  | .accept stream now =>
    handle pki tls s.streams.length stream now { s with streams := s.streams ++ [(stream, now)] }
  | .acceptError => s
  | .leave request => { s with gone := insert request s.gone }
  | .stop => { s with running := false, connectionRequests := ∅ }

/-- One turn of the loop; `none` when it has ended. -/
def step (s : Listener) (action : ListenerAction) : Option Listener :=
  if s.running then some (act pki tls s action) else none

/-- The request with a key that waits for a connection. -/
def registered (s : Listener) (peerId : Identity) (connectionId : ConnectionId) : Option Nat :=
  (s.connectionRequests.lookup peerId).bind fun peerMap => peerMap.lookup connectionId

end Listener

/-- The key that an action is about. -/
def ListenerAction.key : ListenerAction → Option (Identity × ConnectionId)
  | .request peerId connectionId => some (peerId, connectionId)
  | .accept stream _ =>
    match inbound stream with
    | .ok (key, _) => some key
    | .error _ => none
  | _ => none

end AmpcCommon.Tcp
