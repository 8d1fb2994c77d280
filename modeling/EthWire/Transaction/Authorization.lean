/-
# Authorizations to set code

An account authorizes that the code of an address runs in its name. The authorization says on which
chain, where chain id zero stands for every chain, and at which nonce of the account. What is signed
is a list of the three behind an octet that no transaction starts with.

Key definitions: `Authorization`, `Authorization.preimage`, `Authorization.digest`,
`SignedAuthorization`, `SignedAuthorization.authority`, `SignedAuthorization.toItem`,
`SignedAuthorization.ofItem`.
-/
import EthWire.Json.Decoder
import EthWire.Json.Printer
import EthWire.Rlp.Encoding
import EthWire.Signing.PrivateKey

namespace EthWire

/-- The permission to run the code of an address in the signer's name. -/
structure Authorization where
  chainId : Word
  address : Address
  nonce : UInt64
  deriving DecidableEq, Repr

namespace Authorization

/-- The octet in front of the list that is signed. -/
def magic : UInt8 := 0x05

/-- The fields in order. -/
def items (authorization : Authorization) : List Rlp.Item :=
  [.ofWord authorization.chainId, authorization.address.toItem, .ofUInt64 authorization.nonce]

/-- The octets whose digest is signed. -/
def preimage (authorization : Authorization) : Bytes :=
  magic :: Rlp.encode (.list authorization.items)

/-- The digest that is signed. -/
def digest (authorization : Authorization) : Word :=
  keccak256 authorization.preimage

/-! ### JSON -/

/-- The names of the fields in a record. -/
def fieldNames : List String := ["chainId", "address", "nonce"]

/-- Reads the fields of a record. -/
def ofRecord? (record : Json.Record) : Option Authorization := do
  let chainId ← record.required? "chainId" fun levels tree => do
    Word.ofNumeral? (← Json.Decoder.string levels tree)
  let address ← record.required? "address" (Json.Decoder.parsed Address.parse)
  let nonce ← record.required? "nonce" Json.Decoder.uint64
  return ⟨chainId, address, nonce⟩

/-- Reads a record. -/
def decoder : Json.Decoder Authorization := fun levels tree =>
  Json.Record.open? fieldNames levels tree >>= ofRecord?

/-- The fields of a record with the texts of their values. -/
def jsonFields (authorization : Authorization) : List (String × String) :=
  [("chainId", Json.quote authorization.chainId.toDecimal),
    ("address", Json.quote authorization.address.checksum),
    ("nonce", toString authorization.nonce.toNat)]

/-- The text of a record. -/
def json (authorization : Authorization) : String :=
  Json.objectText authorization.jsonFields

end Authorization

/-- An authorization with the signature of the account that gives it. -/
structure SignedAuthorization where
  authorization : Authorization
  signature : Signature
  deriving DecidableEq, Repr

namespace SignedAuthorization

/-- The account that gives the authorization. -/
def authority (scheme : Scheme) (signed : SignedAuthorization) : Except Error Address :=
  signed.signature.recoverWord scheme signed.authorization.digest

/-- The fields of the authorization, then the parity and the two scalars. -/
def toItem (signed : SignedAuthorization) : Rlp.Item :=
  .list (signed.authorization.items ++ signed.signature.toItems)

/-- The authorization in a list of six. The parity is looked at first. -/
def ofItem (item : Rlp.Item) : Except Error SignedAuthorization := do
  match ← item.asList with
  | [chainId, address, nonce, yParity, r, s] =>
    let yParity ← yParity.toBool .signatureV
    let chainId ← chainId.toWord
    let address ← Address.ofItem address
    let nonce ← nonce.toUInt64
    let r ← r.toWord
    let s ← s.toWord
    return ⟨⟨chainId, address, nonce⟩, ⟨yParity, r, s⟩⟩
  | _ => throw .rlpShape

/-- A list of authorizations. -/
def listToItem (list : List SignedAuthorization) : Rlp.Item :=
  .list (list.map toItem)

/-- The authorizations in a list. -/
def listOfItem (item : Rlp.Item) : Except Error (List SignedAuthorization) := do
  (← item.asList).mapM ofItem

/-! ### JSON -/

/-- Reads an object with the authorization's fields and the signature beside them; the values of other
keys must be JSON values. -/
def decoder : Json.Decoder SignedAuthorization := fun levels tree => do
  let _ ← Json.Decoder.value levels tree
  let record ← Json.Record.openObject? (Authorization.fieldNames ++ ["signature"]) levels tree
  let authorization ← Authorization.ofRecord? record
  let signature ← record.required? "signature" (Json.Decoder.parsed Signature.parse)
  return ⟨authorization, signature⟩

/-- The text of a record. -/
def json (signed : SignedAuthorization) : String :=
  Json.objectText
    (signed.authorization.jsonFields ++ [("signature", Json.quote signed.signature.text)])

end SignedAuthorization

/-- The authorization with the signature of a key. -/
def PrivateKey.signAuthorization (scheme : Scheme) (key : PrivateKey)
    (authorization : Authorization) : SignedAuthorization :=
  ⟨authorization, key.signWord scheme authorization.digest⟩

end EthWire
