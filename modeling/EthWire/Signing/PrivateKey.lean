/-
# Private keys

A private key is a scalar strictly between zero and the group order; the type holds nothing else.
Signatures come out of it with the smaller `s`.

Key definitions: `PrivateKey`, `PrivateKey.ofWord`, `PrivateKey.ofBytes`, `PrivateKey.parse`,
`PrivateKey.address`, `PrivateKey.signDigest`, `PrivateKey.signMessage`, `PrivateKey.signUnmarked`.
-/
import EthWire.Signing.Message

namespace EthWire

/-- A scalar strictly between zero and the group order. -/
structure PrivateKey where
  secret : Word
  pos : 0 < secret
  lt : secret < groupOrder
  deriving DecidableEq

namespace PrivateKey

/-- The key of a word in range, if the scheme has a public key for it. -/
def ofWord (scheme : Scheme) (secret : Word) : Except Error PrivateKey := do
  if h : 0 < secret ∧ secret < groupOrder then
    let _ ← Address.ofPublicKey (scheme.publicKey secret)
    return ⟨secret, h.1, h.2⟩
  else throw .privateKeyRange

/-- The key of exactly 32 octets. -/
def ofBytes (scheme : Scheme) (bytes : Bytes) : Except Error PrivateKey :=
  if bytes.length = 32 then ofWord scheme (Word.ofBytes bytes)
  else .error (.privateKeyLength bytes.length 32)

/-- The word of a text whose digits, after one `0x`, take 64 octets. -/
def parseWord (text : String) : Except Error Word := do
  let digits := String.ofList (Text.after0x text.toList)
  if Text.octetCount digits ≠ 64 then
    throw (.privateKeyLength (Text.octetCount digits) 64)
  let bytes ← Hex.decode digits
  if bytes.length ≠ 32 then throw (.wordSize bytes.length)
  return Word.ofBytes bytes

/-- Reads a key of 64 hex digits. -/
def parse (scheme : Scheme) (text : String) : Except Error PrivateKey :=
  parseWord text >>= ofWord scheme

/-- The 32 octets of a key. -/
def toBytes (key : PrivateKey) : Bytes :=
  key.secret.toBytes

/-- The text of a key: `0x` and its digits. -/
def text (key : PrivateKey) : String :=
  Hex.data key.toBytes

/-- The account that the key controls. -/
def address (scheme : Scheme) (key : PrivateKey) : Address :=
  Address.ofLowBits (keccak256 (scheme.publicKey key.secret))

/-- A text for logs, which shows the account and not the key. -/
def redacted (scheme : Scheme) (key : PrivateKey) : String :=
  "PrivateKey(" ++ (key.address scheme).checksum ++ ")"

/-! ### Signing -/

/-- The signature over a digest word, with the smaller `s`. -/
def signWord (scheme : Scheme) (key : PrivateKey) (digest : Word) : Signature :=
  Signature.normalize (scheme.sign digest key.secret)

/-- The signature over a digest of exactly 32 octets. -/
def signDigest (scheme : Scheme) (key : PrivateKey) (digest : Bytes) : Except Error Signature :=
  if digest.length = 32 then .ok (key.signWord scheme (Word.ofBytes digest))
  else .error (.digestLength digest.length)

/-- The signature over the digest of plain octets, which may well be those of a transaction. -/
def signUnmarked (scheme : Scheme) (key : PrivateKey) (message : Bytes) : Signature :=
  key.signWord scheme (keccak256 message)

/-- The signature over a personal message. -/
def signMessage (scheme : Scheme) (key : PrivateKey) (message : Bytes) : Signature :=
  key.signWord scheme (Message.digest message)

end PrivateKey
end EthWire
