import AmpcCommon.Base.Base64
import AmpcCommon.Base.Bytes

/-!
# Decryption of shares

The model of `ampc-server-utils/src/decryption.rs`: the key pairs of a node, read from the texts of the current and the
previous private key, and the decryption of shares with them. The codec for base64, the sealed boxes of the library, and
what the JSON parser makes of a text, are parameters. -/

namespace AmpcCommon.Keys

/-- A text, as the secrets and the shares are stored and sent. -/
abbrev Text := List Char

/-- `as_bytes` -/
def Text.asBytes (text : Text) : Bytes := text.flatMap String.utf8EncodeChar

section Codec

-- `STANDARD`, a codec of the library
variable (engine : Base64.Engine)

/-- `STANDARD.encode` -/
def encodeBase64 (bytes : Bytes) : Text := (engine.encode bytes).map fun b => Char.ofNat b.toNat

/-- `STANDARD.decode` -/
def decodeBase64 (text : Text) : Except String Bytes := engine.decode text.asBytes

end Codec

/-- An error of the library for sealed boxes: that of a decryption that has failed, or another one. -/
inductive AlkaliError where
  | decryptionFailed
  | other (text : String)
  deriving Repr, DecidableEq

/-- The sealed boxes of the library: the public key of a private key, how a message is encrypted for a public key, with
some randomness, and decrypted with a private key, and the texts of the errors. -/
structure SealedBox where
  overheadLength : Nat
  privateKeyLength : Nat
  publicKeyLength : Nat
  publicKey : Bytes → Except AlkaliError Bytes
  encrypt : Bytes → Bytes → Nat → Bytes
  decrypt : Bytes → Bytes → Except AlkaliError Bytes
  display : AlkaliError → String

/-- `SharesDecodingError` -/
inductive SharesDecodingError where
  | secretsManagerError (err : String)
  | secretStringNotFound
  | decodingError (err : String)
  | decodedShareParsingToUtf8Error
  | parsingKeyError
  | sealedBoxOpenError
  | cryptoError (err : AlkaliError)
  | previousKeyNotFound
  | base64DecodeError
  | shareParsingError (err : String)
  deriving Repr, DecidableEq

/-- `SharesEncryptionKeyPair` -/
structure SharesEncryptionKeyPair where
  privateKey : Bytes
  publicKey : Bytes
  deriving Repr, DecidableEq

/-- `SharesEncryptionKeyPairs` -/
structure SharesEncryptionKeyPairs where
  currentKeyPair : SharesEncryptionKeyPair
  previousKeyPair : Option SharesEncryptionKeyPair
  deriving Repr, DecidableEq

/-- `char::is_whitespace` -/
def isWhitespace (c : Char) : Bool :=
  let n := c.toNat
  (9 ≤ n && n ≤ 13) || n == 0x20 || n == 0x85 || n == 0xA0 || n == 0x1680 || (0x2000 ≤ n && n ≤ 0x200A) ||
    n == 0x2028 || n == 0x2029 || n == 0x202F || n == 0x205F || n == 0x3000

/-- `sk.trim().starts_with('{')` -/
def startsWithBrace (sk : Text) : Bool := (sk.dropWhile isWhitespace).head? == some (Char.ofNat 123)

section

variable (engine : Base64.Engine) (box : SealedBox)

-- the field `private-key` of a text that is a JSON object with a string there
variable (privateKeyField : Text → Option Text)

/-- `SharesEncryptionKeyPair::from_b64_private_key_string` -/
def SharesEncryptionKeyPair.fromB64PrivateKeyString (sk : Text) :
    Except SharesDecodingError SharesEncryptionKeyPair := do
  let skB64 ← if startsWithBrace sk then
      match privateKeyField sk with
      | some key => .ok key
      | none => .error .parsingKeyError
    else .ok sk
  match decodeBase64 engine skB64 with
  | .error err => .error (.decodingError err)
  | .ok skBytes =>
    if skBytes.length ≠ box.privateKeyLength then .error .parsingKeyError
    else
      match box.publicKey skBytes with
      | .ok publicKey => .ok ⟨skBytes, publicKey⟩
      | .error err => .error (.cryptoError err)

/-- `SharesEncryptionKeyPair::open_sealed_box` -/
def SharesEncryptionKeyPair.openSealedBox (self : SharesEncryptionKeyPair) (code : Bytes) :
    Except SharesDecodingError Bytes :=
  if code.length < box.overheadLength then .error .sealedBoxOpenError
  else
    match box.decrypt code self.privateKey with
    | .ok decrypted => .ok decrypted
    | .error .decryptionFailed => .error .sealedBoxOpenError
    | .error other => .error (.cryptoError other)

/-- `from_b64_private_key_strings` -/
def SharesEncryptionKeyPairs.fromB64PrivateKeyStrings (currentSk previousSk : Text) :
    Except SharesDecodingError SharesEncryptionKeyPairs := do
  let currentKeyPair ← SharesEncryptionKeyPair.fromB64PrivateKeyString engine box privateKeyField currentSk
  if previousSk.isEmpty then
    return ⟨currentKeyPair, none⟩
  let previousKeyPair ← SharesEncryptionKeyPair.fromB64PrivateKeyString engine box privateKeyField previousSk
  return ⟨currentKeyPair, some previousKeyPair⟩

/-- What `from_storage` does with the results of its two downloads. The previous key is optional. -/
def SharesEncryptionKeyPairs.fromDownloads (current previous : Except SharesDecodingError Text) :
    Except SharesDecodingError SharesEncryptionKeyPairs := do
  let currentSk ← current
  let previousSk := match previous with
    | .ok sk => sk
    | .error _ => []
  SharesEncryptionKeyPairs.fromB64PrivateKeyStrings engine box privateKeyField currentSk previousSk

-- `String::from_utf8` and the JSON parser of the type of the share
variable {T : Type} (fromUtf8 : Bytes → Option Text) (fromJson : Text → Except String T)

end

end AmpcCommon.Keys
