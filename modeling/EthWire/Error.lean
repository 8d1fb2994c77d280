/-
# Failures

Every reader and every check of this library fails with a cause: one constructor for each thing that
can be wrong, carrying the sizes, names or values that show it. The wording of all causes is in
`Error.message`, their coarse classification in `Error.kind`.

Three groups of causes come from a layer below, which has its own account of the failure: hex and
UTF-8 decoding, the curve, and the JSON reader (`Error.hasSource`).

A few causes end the program where they are found (`Error.isFatal`).

Key definitions: `Error`, `ErrorKind`, `Error.kind`, `Error.isFatal`, `Error.message`.
-/
import EthWire.Text.Hex

namespace EthWire

/-- The classes of failures. -/
inductive ErrorKind where
  /-- A length is not what the encoding requires. -/
  | dataSize
  /-- Bytes or text that are no valid, canonical encoding. -/
  | invalidFormat
  /-- A type name or type byte that is not known. -/
  | unsupportedType
  /-- A malformed signature, or one that no key gives. -/
  | signatureInvalid
  /-- A chain id other than the expected one. -/
  | chainMismatch
  /-- A fee cap below the tip. -/
  | feeCapTooLow
  /-- Fields that belong to more than one transaction type. -/
  | ambiguousTransactionType
  deriving DecidableEq, Repr

/-- The causes of failure. -/
inductive Error where
  /-- A pair of characters is no hex numeral. -/
  | invalidHex
  /-- Octets that are not UTF-8. -/
  | invalidUtf8
  /-- An address of the wrong number of octets. -/
  | addressLength (got expected : Nat)
  /-- Mixed case address text whose case is not the checksum of the address. -/
  | checksumCase
  /-- A private key of the wrong length. -/
  | privateKeyLength (got expected : Nat)
  /-- A private key that is zero or not below the group order. -/
  | privateKeyRange
  /-- The zero key was asked for a signature. -/
  | zeroPrivateKey
  /-- A word text that passes the length test of its 64 characters and yet holds fewer octets. -/
  | wordSize (got : Nat)
  /-- A digest that is not 32 octets long. -/
  | digestLength (got : Nat)
  /-- Signature bytes that are neither 64 nor 65 octets long. -/
  | signatureLength (got : Nat)
  /-- A recovery value that names no parity. -/
  | signatureV
  /-- An r outside the group order, or zero. -/
  | signatureR
  /-- An s above half the group order, or zero. -/
  | signatureS
  /-- An r or s that the curve layer refuses to read. -/
  | signatureParse
  /-- A signature from which no key can be recovered. -/
  | signatureRecover
  /-- The sender of an unsigned transaction was asked for. -/
  | noSignature
  /-- The input ends before the item that it announces. -/
  | rlpTruncated (needed available : Nat)
  /-- A list where a string is expected, or the other way round, or the wrong number of items. -/
  | rlpShape
  /-- A longer spelling of an item than its canonical one. -/
  | rlpNotCanonical
  /-- Octets after the item. -/
  | rlpTrailing (remaining : Nat)
  /-- An integer with a leading zero octet. -/
  | rlpLeadingZero
  /-- An integer of more octets than its field holds. -/
  | rlpIntegerSize (got max : Nat)
  /-- A text that names no ABI type. -/
  | abiType (text : String)
  /-- A text that is no definition of a function, event or error. -/
  | abiDefinition (text : String)
  /-- No data where the parameters need some. -/
  | abiNoData
  /-- Data shorter than its parameters need. -/
  | abiDataSize (expected got : Nat)
  /-- An offset that points outside its sequence. -/
  | abiOffset (offset len : Nat)
  /-- A head of more octets than can be set aside for it. -/
  | abiHeadSize (size : Nat)
  /-- Head sizes whose sum is no count of 64 bits. -/
  | abiHeadSum
  /-- A wrong number of values or elements. -/
  | abiCount (expected got : Nat)
  /-- A fixed bytes value of the wrong size. -/
  | abiBytesSize (expected got : Nat)
  /-- A value of another shape than the type. -/
  | abiMismatch (expected : String)
  /-- A value outside the range of the type. -/
  | abiRange (type : String)
  /-- No definition has this selector. -/
  | abiSelector (selector : Bytes)
  /-- The first topic is not the hash of the event's definition. -/
  | abiEventTopic (expected : Word)
  /-- As many topics as the event does not have indexed inputs. -/
  | abiTopicCount (expected got : Nat)
  /-- Deployment data that does not start with the creation code. -/
  | abiBytecode
  /-- Typed data whose values do not fit its types. -/
  | typedData (reason : String)
  /-- A struct value without one of its members. -/
  | typedDataMember (struct field : String)
  /-- JSON text that does not read as the value asked for. -/
  | json
  /-- A type byte of no envelope. -/
  | txType (byte : UInt8)
  /-- A transaction list of a wrong length. -/
  | txFieldCount (tx : String) (expected : List Nat) (got : Nat)
  /-- A field that the transaction type requires. -/
  | missingField (tx field : String)
  /-- A chain id that cannot be used. -/
  | networkId
  /-- A chain id other than the expected one. -/
  | chainMismatch (expected got : Word)
  /-- A fee cap below the tip. -/
  | feeCapTooLow (maxFee maxPriorityFee : Word)
  /-- Fields that belong to different transaction types. -/
  | ambiguousType (fields : List String)
  /-- A fee that overflows when multiplied by the gas limit. -/
  | feeOverflow (field : String)
  /-- A versioned hash with an unknown version, or that is not the one of its sidecar. -/
  | versionedHash (index : Nat) (version : UInt8)
  /-- No data to put into blobs, or no blobs. -/
  | blobEmpty
  /-- More data than the blobs of one transaction hold. -/
  | blobDataSize (max got : Nat)
  /-- A blob of the wrong length. -/
  | blobLength (got : Nat)
  /-- A field element whose top octet is not zero. -/
  | blobElement (blob element : Nat)
  /-- A length header that promises more than the blobs hold. -/
  | blobHeader (declared available : Nat)
  /-- A failure of the commitment backend. -/
  | kzg (reason : String)
  /-- A wrapped signature whose parts cannot be taken apart. -/
  | wrappedSignature (reason : String)
  /-- A chain that has no envelope for the transaction. -/
  | chainEnvelope (reason : String)
  deriving DecidableEq, Repr

namespace Error

/-- The class of a cause. -/
def kind : Error → ErrorKind
  | addressLength .. | privateKeyLength .. | wordSize .. | digestLength .. | rlpTruncated ..
  | rlpTrailing .. | rlpIntegerSize .. | abiNoData | abiDataSize .. | abiOffset .. | abiHeadSize ..
  | abiHeadSum | abiCount .. | abiBytesSize .. | abiTopicCount .. | txFieldCount .. | blobEmpty | blobDataSize ..
  | blobLength .. | blobHeader .. => .dataSize
  | invalidHex | invalidUtf8 | checksumCase | privateKeyRange | zeroPrivateKey | rlpShape
  | rlpNotCanonical | rlpLeadingZero | abiDefinition .. | abiMismatch .. | abiRange ..
  | abiSelector .. | abiEventTopic .. | abiBytecode | typedData .. | typedDataMember .. | json
  | missingField .. | feeOverflow .. | versionedHash .. | blobElement .. | kzg ..
  | wrappedSignature .. | chainEnvelope .. => .invalidFormat
  | abiType .. | txType .. => .unsupportedType
  | signatureLength .. | signatureV | signatureR | signatureS | signatureParse | signatureRecover
  | noSignature => .signatureInvalid
  | networkId | chainMismatch .. => .chainMismatch
  | feeCapTooLow .. => .feeCapTooLow
  | ambiguousType .. => .ambiguousTransactionType

/-- Whether the cause was found by a layer below that has its own account of it. -/
def hasSource : Error → Bool
  | privateKeyRange | signatureParse | signatureRecover | invalidHex | invalidUtf8 | json => true
  | _ => false

/-- Whether the cause ends the program instead of being returned by it. -/
def isFatal : Error → Bool
  | wordSize .. | abiHeadSize .. | abiHeadSum => true
  | _ => false

/-- A list in square brackets, its items separated by a comma and a space. -/
def bracketed (items : List String) : String :=
  "[" ++ ", ".intercalate items ++ "]"

/-- A text in double quotes. -/
def quoted (text : String) : String :=
  "\"" ++ text ++ "\""

/-- The wording of a cause. -/
def message : Error → String
  | invalidHex => "Invalid hex character"
  | invalidUtf8 => "Failed to parse bytes as utf8"
  | addressLength got expected => s!"Invalid address length, got {got}, expected {expected}"
  | checksumCase => "Invalid EIP-55 Address encoding"
  | privateKeyLength got expected => s!"Invalid private key length, got {got} expected {expected}"
  | privateKeyRange => "Failed to decode private key"
  | zeroPrivateKey => "Zero priv key cannot sign"
  | wordSize got => s!"A word must be 32 bytes, got {got}"
  | digestLength got => s!"Signing digest must be 32 bytes, got {got}"
  | signatureLength got => s!"Signature should be exactly 65 bytes long, got {got}"
  | signatureV => "Invalid V value"
  | signatureR => "Invalid R value"
  | signatureS => "Invalid S value"
  | signatureParse => "Failed to parse recoverable signature"
  | signatureRecover => "Failed to recover signature"
  | noSignature => "This transaction does not have a signature attached"
  | rlpTruncated needed available =>
    s!"RLP item needs {needed} bytes but only {available} are available"
  | rlpShape => "failed to deserialize using RLP-encoding"
  | rlpNotCanonical => "RLP input is not canonically encoded"
  | rlpTrailing remaining => s!"{remaining} unexpected bytes after RLP item"
  | rlpLeadingZero => "RLP integer has leading zero bytes"
  | rlpIntegerSize got max => s!"RLP integer is {got} bytes, at most {max} allowed"
  | abiType text => s!"Unsupported ABI type {text}"
  | abiDefinition text => s!"Invalid function or event signature {text}"
  | abiNoData => "Cannot decode zero data (\"0x\") with ABI parameters"
  | abiDataSize expected got => s!"ABI data too small, needs at least {expected} bytes, got {got}"
  | abiOffset offset len => s!"ABI offset {offset} is out of bounds for data of length {len}"
  | abiHeadSize size => s!"ABI head of {size} bytes cannot be set aside"
  | abiHeadSum => "ABI head sizes exceed 64 bits"
  | abiCount expected got => s!"ABI length mismatch, expected {expected} got {got}"
  | abiBytesSize expected got =>
    s!"Fixed bytes size mismatch, expected bytes{expected} got {got} bytes"
  | abiMismatch expected => s!"ABI value does not match type {expected}"
  | abiRange type => s!"Value out of range for ABI type {type}"
  | abiSelector selector => "No signature matches selector " ++ Hex.data selector
  | abiEventTopic expected => "First log topic is not the event signature " ++ Hex.word expected
  | abiTopicCount expected got =>
    s!"Event has {expected} indexed inputs but the log has {got} topics for them"
  | abiBytecode => "Deploy data does not start with the bytecode"
  | typedData reason => s!"Invalid EIP-712 typed data: {reason}"
  | typedDataMember struct field => s!"Typed data struct {struct} is missing field {field}"
  | json => "Invalid JSON value"
  | txType byte => "Unknown transaction type " ++ Hex.data [byte]
  | txFieldCount tx expected got =>
    s!"{tx} transaction has {got} fields, expected one of " ++ bracketed (expected.map toString)
  | missingField tx field => s!"{tx} transaction requires field {field}"
  | networkId => "Invalid network id"
  | chainMismatch expected got =>
    "Chain id mismatch, expected " ++ expected.toDecimal ++ " got " ++ got.toDecimal
  | feeCapTooLow maxFee maxPriorityFee =>
    "max_fee_per_gas " ++ maxFee.toDecimal ++ " is lower than max_priority_fee_per_gas " ++
      maxPriorityFee.toDecimal
  | ambiguousType fields =>
    "Fields " ++ bracketed (fields.map quoted) ++ " belong to different transaction types"
  | feeOverflow field => s!"{field} times the gas limit does not fit in 256 bits"
  | versionedHash index version =>
    s!"Blob versioned hash {index} has version " ++ Hex.data [version] ++ ", expected 0x01"
  | blobEmpty => "Blob data is empty"
  | blobDataSize max got => s!"Blob data is {got} bytes, at most {max} fit in a transaction"
  | blobLength got => s!"Blob has invalid length {got}"
  | blobElement blob element =>
    s!"Field element {element} of blob {blob} is outside the scalar field"
  | blobHeader declared available =>
    s!"Blob header declares {declared} bytes but only {available} are present"
  | kzg reason => s!"KZG backend error: {reason}"
  | wrappedSignature reason => s!"Invalid wrapped signature: {reason}"
  | chainEnvelope reason => s!"Chain serializer error: {reason}"

end Error
end EthWire
