/-
# Writing transactions

A transaction is written as the list of its fields behind the octet of its type. The signature follows
the other fields. A legacy transaction folds the parity of its signature and its chain id into one
number, and an unsigned one for some chain ends in that chain's id and two empty strings.

Nothing is written that breaks the rules of its envelope. The octets that are signed are those of the
unsigned transaction. Blobs are only written for the network, as three lists beside the list of the
fields.

Key definitions: `Transaction.fields`, `Transaction.trailer`, `Transaction.toItem`,
`Transaction.toBytes`, `Transaction.signingPayload`, `Transaction.toNetworkBytes`,
`Transaction.text`.
-/
import EthWire.Transaction.Basic

namespace EthWire
namespace Transaction

/-- The receiver as a string, empty when there is none. -/
def recipientToItem : Option Address → Rlp.Item
  | some address => address.toItem
  | none => .empty

/-- The fields before the signature. -/
def fields (tx : Transaction) : List Rlp.Item :=
  match tx.envelope with
  | .legacy _ gasPrice recipient =>
    [.ofWord tx.nonce, .ofWord gasPrice, .ofWord tx.gasLimit, recipientToItem recipient,
      .ofWord tx.value, .bytes tx.data]
  | .eip2930 chainId gasPrice recipient accessList =>
    [.ofWord chainId, .ofWord tx.nonce, .ofWord gasPrice, .ofWord tx.gasLimit, recipientToItem recipient,
      .ofWord tx.value, .bytes tx.data, AccessEntry.listToItem accessList]
  | .eip1559 chainId fees recipient accessList =>
    [.ofWord chainId, .ofWord tx.nonce, .ofWord fees.maxPriorityFee, .ofWord fees.maxFee,
      .ofWord tx.gasLimit, recipientToItem recipient, .ofWord tx.value, .bytes tx.data,
      AccessEntry.listToItem accessList]
  | .eip4844 chainId fees recipient accessList maxFeePerBlobGas hashes _ =>
    [.ofWord chainId, .ofWord tx.nonce, .ofWord fees.maxPriorityFee, .ofWord fees.maxFee,
      .ofWord tx.gasLimit, recipient.toItem, .ofWord tx.value, .bytes tx.data,
      AccessEntry.listToItem accessList, .ofWord maxFeePerBlobGas, Word.listToItem hashes]
  | .eip7702 chainId fees recipient accessList authorizations =>
    [.ofWord chainId, .ofWord tx.nonce, .ofWord fees.maxPriorityFee, .ofWord fees.maxFee,
      .ofWord tx.gasLimit, recipient.toItem, .ofWord tx.value, .bytes tx.data,
      AccessEntry.listToItem accessList, SignedAuthorization.listToItem authorizations]

/-- The value of `v` in a legacy transaction. -/
def legacyV (chainId : Option Word) (signature : Signature) : Except Error Word :=
  match chainId with
  | some chainId => signature.eip155V chainId
  | none => .ok (BitVec.ofNat 256 signature.v.toNat)

/-- What follows the other fields: the signature, or what stands for it. -/
def trailer (envelope : Envelope) (signature : Option Signature) : Except Error (List Rlp.Item) :=
  match envelope, signature with
  | .legacy chainId _ _, some signature => do
    let v ← legacyV chainId signature
    return [.ofWord v, .ofWord signature.r, .ofWord signature.s]
  | .legacy (some chainId) _ _, none => .ok [.ofWord chainId, .empty, .empty]
  | .legacy none _ _, none => .ok []
  | _, some signature => .ok signature.toItems
  | _, none => .ok []

/-- The list of all fields, with a signature or none. -/
def toItem (tx : Transaction) (signature : Option Signature) : Except Error Rlp.Item := do
  return .list (tx.fields ++ (← trailer tx.envelope signature))

/-- The written form, with a signature or none. -/
def encode (tx : Transaction) (signature : Option Signature) : Except Error Bytes := do
  tx.validate
  let body := Rlp.encode (← tx.toItem signature)
  return tx.kind.typeByte?.toList ++ body

/-- The written form of a transaction. -/
def toBytes (tx : Transaction) : Except Error Bytes :=
  tx.encode tx.signature

/-- The octets that a signature is for. -/
def signingPayload (tx : Transaction) : Except Error Bytes :=
  tx.encode none

/-- The form that is sent to peers: the written form, with the blobs beside it if there are any. -/
def toNetworkBytes (tx : Transaction) : Except Error Bytes :=
  match tx.envelope with
  | .eip4844 _ _ _ _ _ _ (some sidecars) => do
    tx.validate
    let item ← tx.toItem tx.signature
    return tx.kind.typeByte?.toList ++ Rlp.encode (.list (item :: Sidecar.toItems sidecars))
  | _ => tx.toBytes

/-- The digest of the written form, which names the transaction. -/
def hash (tx : Transaction) : Except Error Word :=
  tx.toBytes.map keccak256

/-- The digest that is signed. -/
def signingHash (tx : Transaction) : Except Error Word :=
  tx.signingPayload.map keccak256

/-! ### Text -/

/-- A text of the written form, or the reason why there is none. -/
def showWith (form : Bytes → String) (tx : Transaction) : String :=
  match tx.toBytes with
  | .ok bytes => form bytes
  | .error cause => "invalid " ++ tx.kind.name ++ " transaction: " ++ cause.message

/-- The hex text of the written form, or the reason why there is none. -/
def text (tx : Transaction) : String :=
  tx.showWith Hex.data

/-- The JSON text of a transaction that can be written. -/
def json (tx : Transaction) : Except Error String :=
  tx.toBytes.map fun bytes => Json.quote (Hex.data bytes)

end Transaction
end EthWire
