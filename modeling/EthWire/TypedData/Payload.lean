/-
# Typed data to be signed

A payload is a schema, the name of the type that is signed, a message of that type, and a domain that
says for whom the message is. The domain's parts are all optional, and only the present ones count.
It is hashed as a struct of its own; a payload that does not declare the domain's type declares it by
the parts that are present.

The digest to be signed covers the two octets 0x1901, the domain's digest and the message's; a payload
whose type is the domain itself has no message.

Key definitions: `Domain`, `Payload`, `Domain.members`, `Domain.value`, `Payload.domainDigest`,
`Payload.digest`, `Payload.decoder`, `Payload.json`, `Payload.verify`.
-/
import EthWire.Json.Decoder
import EthWire.Signing.PrivateKey
import EthWire.TypedData.Encoding

namespace EthWire
namespace TypedData

/-- For whom a message is. -/
structure Domain where
  name : Option String
  version : Option String
  chainId : Option Word
  verifyingContract : Option Address
  salt : Option Word
  deriving DecidableEq, Repr

namespace Domain

/-- The domain without any part. -/
def empty : Domain := ⟨none, none, none, none, none⟩

/-- The name of the domain's type. -/
def typeName : String := "EIP712Domain"

/-- The present parts: name, type and text. -/
def parts (domain : Domain) : List (Member × String) :=
  (domain.name.map fun s => (⟨"name", "string"⟩, s)).toList ++
  (domain.version.map fun s => (⟨"version", "string"⟩, s)).toList ++
  (domain.chainId.map fun n => (⟨"chainId", "uint256"⟩, n.toDecimal)).toList ++
  (domain.verifyingContract.map fun a => (⟨"verifyingContract", "address"⟩, a.checksum)).toList ++
  (domain.salt.map fun w => (⟨"salt", "bytes32"⟩, Hex.word w)).toList

/-- The members of the domain's type, as far as the parts are present. -/
def members (domain : Domain) : List Member :=
  domain.parts.map (·.1)

/-- The domain as a struct value of texts. -/
def value (domain : Domain) : Json.Value :=
  .object (Dictionary.ofList (domain.parts.map fun part => (part.1.name, .string part.2)))

/-- The text of the domain as a record. -/
def json (domain : Domain) : String :=
  Json.objectText (domain.parts.map fun part => (part.1.name, Json.quote part.2))

/-- Reads a chain id: any spelling of an unsigned integer. -/
def chainIdDecoder : Json.Decoder Word := fun levels tree => do
  (readUint (← Json.Decoder.value levels tree)).toOption

/-- Reads a record. -/
def decoder : Json.Decoder Domain := fun levels tree => do
  let record ← Json.Record.open?
    ["name", "version", "chainId", "verifyingContract", "salt"] levels tree
  let name ← record.optional? "name" Json.Decoder.string
  let version ← record.optional? "version" Json.Decoder.string
  let chainId ← record.optional? "chainId" chainIdDecoder
  let contract ← record.optional? "verifyingContract" (Json.Decoder.parsed Address.parse)
  let salt ← record.optional? "salt" (Json.Decoder.parsed Word.ofHex)
  return ⟨name, version, chainId, contract, salt⟩

end Domain

/-- A message together with its types and its domain. -/
structure Payload where
  types : Schema
  primaryType : String
  domain : Domain
  message : Json.Value
  deriving Repr

namespace Payload

/-- The schema, which declares the domain's type by the present parts if it is not declared. -/
def schema (payload : Payload) : Schema :=
  if payload.types.contains Domain.typeName then payload.types
  else payload.types.insert Domain.typeName payload.domain.members

/-- The digest of the domain. -/
def domainDigest (payload : Payload) : Except Error Word :=
  hashStruct payload.schema Domain.typeName payload.domain.value

/-- The digest of the message, or nothing if the payload is a domain alone. -/
def messageDigest (payload : Payload) : Except Error Bytes :=
  if payload.primaryType = Domain.typeName then .ok []
  else (hashStruct payload.schema payload.primaryType payload.message).map Word.toBytes

/-- The octets whose digest is signed. -/
def preimage (payload : Payload) : Except Error Bytes := do
  let domain ← payload.domainDigest
  let message ← payload.messageDigest
  return [0x19, 0x01] ++ domain.toBytes ++ message

/-- The digest that is signed. -/
def digest (payload : Payload) : Except Error Word :=
  payload.preimage.map keccak256

/-- Whether the address signed the payload. -/
def verify (scheme : Scheme) (address : Address) (payload : Payload) (signature : Signature) :
    Except Error Bool := do
  return EthWire.verify scheme address (← payload.digest).toBytes signature

/-! ### JSON -/

/-- Reads a member of a struct type. -/
def memberDecoder : Json.Decoder Member := fun levels tree => do
  let record ← Json.Record.open? ["name", "type"] levels tree
  return ⟨← record.required? "name" Json.Decoder.string,
    ← record.required? "type" Json.Decoder.string⟩

/-- Reads struct types by their names. -/
def schemaDecoder : Json.Decoder Schema :=
  Json.Decoder.dictionary memberDecoder.list

/-- Reads a record. -/
def decoder : Json.Decoder Payload := fun levels tree => do
  let record ← Json.Record.open? ["types", "primaryType", "domain", "message"] levels tree
  let types ← record.required? "types" schemaDecoder
  let primaryType ← record.required? "primaryType" Json.Decoder.string
  let domain ← record.withDefault? "domain" Domain.empty Domain.decoder
  let message ← record.withDefault? "message" .null Json.Decoder.value
  return ⟨types, primaryType, domain, message⟩

/-- Reads the text of a payload. -/
def parse (text : String) : Except Error Payload :=
  match decoder.run? text with
  | some payload => .ok payload
  | none => .error .json

/-- The text of a member as a record. -/
def memberJson (member : Member) : String :=
  Json.objectText [("name", Json.quote member.name), ("type", Json.quote member.type)]

/-- The text of the payload as a record. -/
def json (payload : Payload) : String :=
  Json.objectText
    [("types", Json.objectText (payload.types.map fun declared =>
        (declared.1, Json.listText (declared.2.map memberJson)))),
      ("primaryType", Json.quote payload.primaryType),
      ("domain", payload.domain.json),
      ("message", payload.message.text)]

end Payload
end TypedData

/-- The signature over the digest of typed data. -/
def PrivateKey.signTypedData (scheme : Scheme) (key : PrivateKey) (payload : TypedData.Payload) :
    Except Error Signature := do
  return key.signWord scheme (← payload.digest)

end EthWire
