import AmpcCommon.Keys.Decryption
import AmpcCommon.Base.Transition

/-!
# Rotation of keys

The model of `key-manager/src/bin/key_manager.rs` and of those who use its keys. A rotation uploads the private key as
a new version of the secret and then the public key, and rotations can overlap. A client reads the public key and seals
shares for it at any time later. A node downloads the current version of the secret, and then the previous one, at
different times. The services that keep the secret and the public key are a parameter, with all they can answer: a
request can be lost, or be applied and not acknowledged. -/

namespace AmpcCommon.Keys

/-- The label of a version of a secret: `AWSCURRENT` or `AWSPREVIOUS`. -/
inductive VersionStage where
  | current
  | previous
  deriving Repr, DecidableEq

/-- The services: Secrets Manager with one secret, and a bucket with one object. A `Choice` is what else an answer
depends on. `versions` and `object` are what the services keep. -/
structure Storage where
  State : Type
  Choice : Type
  initial : State
  versions : State → List Text
  object : State → Option Text
  putSecretValue : Text → Choice → State → Except String Unit × State
  getSecretValue : VersionStage → Choice → State → Except String (Option Text)
  putObject : Text → Choice → State → Except String Unit × State
  getObject : Choice → State → Except String Text

/-- `download_private_key_from_asm`, of the answer to its request. -/
def downloadPrivateKey (response : Except String (Option Text)) : Except SharesDecodingError Text :=
  match response with
  | .ok (some data) => .ok data
  | .ok none => .error .secretStringNotFound
  | .error e => .error (.secretsManagerError e)

/-- A share that a client has sealed. -/
structure SealedShare where
  message : Bytes
  publicKey : Bytes
  text : Text
  deriving Repr, DecidableEq

/-- What a node has read: the number of versions of the secret when it downloaded the current one, and the text. -/
structure Loading where
  versions : Nat
  current : Text
  deriving Repr, DecidableEq

/-- The keys of a node, with the numbers of versions at its downloads, and whether there was a previous one. -/
structure NodeKeys where
  keyPairs : SharesEncryptionKeyPairs
  versions : Nat
  laterVersions : Nat
  previousFound : Bool
  deriving Repr, DecidableEq

/-- One node's secret and public key, and who uses them. -/
structure KeySystem (storage : Storage) where
  state : storage.State
  /-- The public keys of the rotations in progress. -/
  pending : List Text
  /-- The public keys that clients have read. -/
  fetched : List Bytes
  shares : List SealedShare
  loading : Option Loading
  keys : Option NodeKeys

variable {storage : Storage}

def KeySystem.init : KeySystem storage := ⟨storage.initial, [], [], [], none, none⟩

variable (storage) in
inductive KeyEvent where
  /-- A rotation generates a key pair and uploads its private key. -/
  | uploadPrivate (sk : Bytes) (c : storage.Choice)
  /-- One of the rotations in progress uploads its public key. -/
  | uploadPublic (i : Nat) (c : storage.Choice)
  /-- A client reads the public key. -/
  | fetch (c : storage.Choice)
  | sealShare (i : Nat) (message : Bytes) (random : Nat)
  /-- A node calls `from_storage`. -/
  | loadCurrent (c : storage.Choice)
  | loadPrevious (c : storage.Choice)

variable (engine : Base64.Engine) (box : SealedBox) (privateKeyField : Text → Option Text)

/-- One step. -/
def KeySystem.step (s : KeySystem storage) : KeyEvent storage → Option (KeySystem storage)
  | .uploadPrivate sk c =>
    match box.publicKey sk with
    | .error _ => none
    | .ok publicKey =>
      let (response, state) := storage.putSecretValue (encodeBase64 engine sk) c s.state
      match response with
      | .ok () => some { s with state := state, pending := s.pending ++ [encodeBase64 engine publicKey] }
      | .error _ => some { s with state := state }
  | .uploadPublic i c => do
    let publicKey ← s.pending[i]?
    some { s with
      state := (storage.putObject publicKey c s.state).2
      pending := s.pending.eraseIdx i }
  | .fetch c =>
    match storage.getObject c s.state with
    | .error _ => none
    | .ok text =>
      match decodeBase64 engine text with
      | .error _ => none
      | .ok publicKey => some { s with fetched := s.fetched ++ [publicKey] }
  | .sealShare i message random => do
    let publicKey ← s.fetched[i]?
    let text := encodeBase64 engine (box.encrypt message publicKey random)
    some { s with shares := s.shares ++ [⟨message, publicKey, text⟩] }
  | .loadCurrent c =>
    match downloadPrivateKey (storage.getSecretValue .current c s.state) with
    | .error _ => some { s with loading := none }
    | .ok current => some { s with loading := some ⟨(storage.versions s.state).length, current⟩ }
  | .loadPrevious c => do
    let loading ← s.loading
    let previous := downloadPrivateKey (storage.getSecretValue .previous c s.state)
    match SharesEncryptionKeyPairs.fromDownloads engine box privateKeyField (.ok loading.current) previous with
    | .error _ => some { s with loading := none }
    | .ok keyPairs =>
      some { s with
        loading := none
        keys := some ⟨keyPairs, loading.versions, (storage.versions s.state).length,
          keyPairs.previousKeyPair.isSome⟩ }

end AmpcCommon.Keys
