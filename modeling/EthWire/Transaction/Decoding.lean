/-
# Reading transactions

The first octet tells the type: from 0xc0 on it starts a list and the transaction is a legacy one,
otherwise it is the octet of a type and the list follows. The list has as many fields as the type, or
three more for the signature. Every field is read strictly and the rules of the envelope are checked,
so each transaction is read from one octet string only.

The fields are read in order, and the first one that cannot be read decides the failure.

Key definitions: `Transaction.ofItems`, `Transaction.ofBytes`.
-/
import EthWire.Rlp.Decoding
import EthWire.Transaction.Encoding

namespace EthWire
namespace Transaction

/-- The receiver in a string, nobody if it is empty. -/
def recipientOfItem (item : Rlp.Item) : Except Error (Option Address) := do
  let content ← item.asBytes
  if content.isEmpty then return none else return some (← Address.ofBytes content)

/-- Whether both scalars are the empty string, which no signature has. -/
def isPlaceholder (r s : Rlp.Item) : Except Error Bool := do
  if (← r.asBytes).isEmpty then return (← s.asBytes).isEmpty else return false

/-- The chain id and the signature that follow the other fields of a legacy transaction. A bare
parity is refused, because it would be written as 27 or 28. -/
def legacyTrailer : List Rlp.Item → Except Error (Option Word × Option Signature)
  | [] => .ok (none, none)
  | [v, r, s] => do
    let v ← v.toWord
    if ← isPlaceholder r s then return (some v, none)
    if v < 27 then throw .signatureV
    let (yParity, chainId) ← Signature.parseV v
    let r ← r.toWord
    let s ← s.toWord
    return (chainId, some ⟨yParity, r, s⟩)
  | _ => .error .rlpShape

/-- The list lengths of a type, without and with a signature. -/
def fieldCounts (kind : TxKind) : List Nat :=
  [kind.fieldCount, kind.fieldCount + 3]

/-- The transaction in a list of fields, before its rules are checked. -/
def readFields (kind : TxKind) (items : List Rlp.Item) : Except Error Transaction :=
  match kind, items with
  | .legacy, nonce :: gasPrice :: gasLimit :: recipient :: value :: data :: trailer => do
    let nonce ← nonce.toWord
    let gasPrice ← gasPrice.toWord
    let gasLimit ← gasLimit.toWord
    let recipient ← recipientOfItem recipient
    let value ← value.toWord
    let data ← data.asBytes
    let (chainId, signature) ← legacyTrailer trailer
    return ⟨.legacy chainId gasPrice recipient, nonce, gasLimit, value, data, signature⟩
  | .eip2930, chainId :: nonce :: gasPrice :: gasLimit :: recipient :: value :: data :: accessList ::
      trailer => do
    let chainId ← chainId.toWord
    let nonce ← nonce.toWord
    let gasPrice ← gasPrice.toWord
    let gasLimit ← gasLimit.toWord
    let recipient ← recipientOfItem recipient
    let value ← value.toWord
    let data ← data.asBytes
    let accessList ← AccessEntry.listOfItem accessList
    let signature ← Signature.ofItems trailer
    return ⟨.eip2930 chainId gasPrice recipient accessList, nonce, gasLimit, value, data, signature⟩
  | .eip1559, chainId :: nonce :: maxPriorityFee :: maxFee :: gasLimit :: recipient :: value :: data ::
      accessList :: trailer => do
    let chainId ← chainId.toWord
    let nonce ← nonce.toWord
    let maxPriorityFee ← maxPriorityFee.toWord
    let maxFee ← maxFee.toWord
    let gasLimit ← gasLimit.toWord
    let recipient ← recipientOfItem recipient
    let value ← value.toWord
    let data ← data.asBytes
    let accessList ← AccessEntry.listOfItem accessList
    let signature ← Signature.ofItems trailer
    return ⟨.eip1559 chainId ⟨maxFee, maxPriorityFee⟩ recipient accessList, nonce, gasLimit, value,
      data, signature⟩
  | .eip4844, chainId :: nonce :: maxPriorityFee :: maxFee :: gasLimit :: recipient :: value :: data ::
      accessList :: maxFeePerBlobGas :: hashes :: trailer => do
    let chainId ← chainId.toWord
    let nonce ← nonce.toWord
    let maxPriorityFee ← maxPriorityFee.toWord
    let maxFee ← maxFee.toWord
    let gasLimit ← gasLimit.toWord
    let recipient ← Address.ofItem recipient
    let value ← value.toWord
    let data ← data.asBytes
    let accessList ← AccessEntry.listOfItem accessList
    let maxFeePerBlobGas ← maxFeePerBlobGas.toWord
    let hashes ← Word.listOfItem hashes
    let signature ← Signature.ofItems trailer
    return ⟨.eip4844 chainId ⟨maxFee, maxPriorityFee⟩ recipient accessList maxFeePerBlobGas hashes
      none, nonce, gasLimit, value, data, signature⟩
  | .eip7702, chainId :: nonce :: maxPriorityFee :: maxFee :: gasLimit :: recipient :: value :: data ::
      accessList :: authorizations :: trailer => do
    let chainId ← chainId.toWord
    let nonce ← nonce.toWord
    let maxPriorityFee ← maxPriorityFee.toWord
    let maxFee ← maxFee.toWord
    let gasLimit ← gasLimit.toWord
    let recipient ← Address.ofItem recipient
    let value ← value.toWord
    let data ← data.asBytes
    let accessList ← AccessEntry.listOfItem accessList
    let authorizations ← SignedAuthorization.listOfItem authorizations
    let signature ← Signature.ofItems trailer
    return ⟨.eip7702 chainId ⟨maxFee, maxPriorityFee⟩ recipient accessList authorizations, nonce,
      gasLimit, value, data, signature⟩
  | kind, items => .error (.txFieldCount kind.name (fieldCounts kind) items.length)

/-- The transaction in a list of as many fields as the type has, if it keeps the rules. -/
def ofItems (kind : TxKind) (items : List Rlp.Item) : Except Error Transaction := do
  if !(fieldCounts kind).contains items.length then
    throw (.txFieldCount kind.name (fieldCounts kind) items.length)
  let tx ← readFields kind items
  tx.validate
  return tx

/-- The transaction with the blobs beside it, whose hashes must be those that it names. -/
def withSidecars (tx : Transaction) (sidecars : List Sidecar) : Except Error Transaction :=
  match tx.envelope with
  | .eip4844 chainId fees recipient accessList maxFeePerBlobGas hashes _ =>
    if sidecars.map Sidecar.versionedHash = hashes then
      .ok { tx with
        envelope := .eip4844 chainId fees recipient accessList maxFeePerBlobGas hashes (some sidecars) }
    else .error .rlpShape
  | _ => .ok tx

/-- The transaction behind the octet of its type: a list of its fields, or for blobs a list of that
list and the three lists beside it. -/
def ofTypedItem (kind : TxKind) (item : Rlp.Item) : Except Error Transaction :=
  match kind, item with
  | .eip4844, .list [.list fields, blobs, commitments, proofs] => do
    let tx ← ofItems kind fields
    tx.withSidecars (← Sidecar.ofItems blobs commitments proofs)
  | _, _ => item.asList >>= ofItems kind

/-- The first octets of lists are those from here on. -/
def firstListByte : UInt8 := 0xc0

/-- The transaction that octets spell. -/
def ofBytes (bytes : Bytes) : Except Error Transaction :=
  match bytes with
  | [] => .error .rlpShape
  | first :: rest =>
    if firstListByte ≤ first then do
      (← Rlp.decode bytes).asList >>= ofItems .legacy
    else do
      let kind ← TxKind.ofTypeByte first
      ofTypedItem kind (← Rlp.decode rest)

end Transaction
end EthWire
