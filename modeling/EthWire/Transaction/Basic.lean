/-
# Transactions

What all transactions say is in `Transaction`: a nonce, a gas limit, a value, data, and perhaps a
signature. The rest depends on the type and is the `Envelope`: how gas is paid, for which chain the
transaction is, who receives it, and what only one type carries.

A legacy transaction may be for no chain in particular. Only the first three types can create a
contract, which they do when nobody receives them. The blobs themselves travel beside a transaction and
are not part of what is signed.

Every envelope has a rule for its fields, which holds of whatever is written or read.

Key definitions: `Envelope`, `Transaction`, `Transaction.kind`, `Transaction.chainId?`,
`Transaction.recipient?`, `Envelope.check`, `Transaction.validate`.
-/
import EthWire.Blob.Sidecar
import EthWire.Transaction.AccessList
import EthWire.Transaction.Authorization
import EthWire.Transaction.Kind

namespace EthWire

/-- The most that is paid for a unit of gas, and the most of it that goes to the block's producer. -/
structure FeeCaps where
  maxFee : Word
  maxPriorityFee : Word
  deriving DecidableEq, Repr

/-- Refuses a tip above the fee cap. -/
def FeeCaps.check (fees : FeeCaps) : Except Error Unit :=
  if fees.maxFee < fees.maxPriorityFee then .error (.feeCapTooLow fees.maxFee fees.maxPriorityFee)
  else .ok ()

/-- What depends on the type of a transaction. -/
inductive Envelope where
  | legacy (chainId : Option Word) (gasPrice : Word) (recipient : Option Address)
  | eip2930 (chainId gasPrice : Word) (recipient : Option Address) (accessList : List AccessEntry)
  | eip1559 (chainId : Word) (fees : FeeCaps) (recipient : Option Address)
    (accessList : List AccessEntry)
  | eip4844 (chainId : Word) (fees : FeeCaps) (recipient : Address) (accessList : List AccessEntry)
    (maxFeePerBlobGas : Word) (blobHashes : List Word) (sidecars : Option (List Sidecar))
  | eip7702 (chainId : Word) (fees : FeeCaps) (recipient : Address) (accessList : List AccessEntry)
    (authorizations : List SignedAuthorization)
  deriving DecidableEq, Repr

namespace Envelope

/-- The type of a transaction. -/
def kind : Envelope → TxKind
  | legacy .. => .legacy
  | eip2930 .. => .eip2930
  | eip1559 .. => .eip1559
  | eip4844 .. => .eip4844
  | eip7702 .. => .eip7702

/-- The chain that the transaction is for. -/
def chainId? : Envelope → Option Word
  | legacy chainId .. => chainId
  | eip2930 chainId .. | eip1559 chainId .. | eip4844 chainId .. | eip7702 chainId .. => some chainId

/-- Who receives the transaction; nobody when it creates a contract. -/
def recipient? : Envelope → Option Address
  | legacy _ _ recipient | eip2930 _ _ recipient _ | eip1559 _ _ recipient _ => recipient
  | eip4844 _ _ recipient .. | eip7702 _ _ recipient .. => some recipient

/-- The fee cap and the tip, where the type has them. -/
def feeCaps? : Envelope → Option FeeCaps
  | legacy .. | eip2930 .. => none
  | eip1559 _ fees .. | eip4844 _ fees .. | eip7702 _ fees .. => some fees

/-- The most that a unit of gas can cost. -/
def gasPrice : Envelope → Word
  | legacy _ gasPrice _ | eip2930 _ gasPrice .. => gasPrice
  | eip1559 _ fees .. | eip4844 _ fees .. | eip7702 _ fees .. => fees.maxFee

/-! ### Rules -/

/-- The version octet of a blob hash. -/
def hashVersion (hash : Word) : UInt8 :=
  UInt8.ofNat (hash.toNat / 2 ^ 248)

/-- Refuses the first hash with another version. -/
def checkVersions (hashes : List Word) : Except Error Unit :=
  hashes.zipIdx.forM fun (hash, i) =>
    if hashVersion hash = blobHashVersion then .ok () else .error (.versionedHash i (hashVersion hash))

/-- Legacy chain ids are bounded, tips do not exceed fee caps, there are blob hashes, all of the known
version, and there are authorizations. -/
def check : Envelope → Except Error Unit
  | legacy (some chainId) .. => if maxChainId ≤ chainId.toNat then .error .networkId else .ok ()
  | legacy none .. | eip2930 .. => .ok ()
  | eip1559 _ fees .. => fees.check
  | eip4844 _ fees _ _ _ hashes _ => do
    fees.check
    if hashes.isEmpty then throw (.missingField "eip4844" "blob_versioned_hashes")
    checkVersions hashes
  | eip7702 _ fees _ _ authorizations => do
    fees.check
    if authorizations.isEmpty then throw (.missingField "eip7702" "authorization_list")

end Envelope

/-- A transaction of any type. -/
structure Transaction where
  envelope : Envelope
  nonce : Word
  gasLimit : Word
  value : Word
  data : Bytes
  signature : Option Signature
  deriving DecidableEq, Repr

namespace Transaction

/-- The type of a transaction. -/
def kind (tx : Transaction) : TxKind :=
  tx.envelope.kind

/-- The chain that the transaction is for. -/
def chainId? (tx : Transaction) : Option Word :=
  tx.envelope.chainId?

/-- Who receives the transaction; nobody when it creates a contract. -/
def recipient? (tx : Transaction) : Option Address :=
  tx.envelope.recipient?

/-- Refuses a transaction that breaks the rules of its envelope. -/
def validate (tx : Transaction) : Except Error Unit :=
  tx.envelope.check

/-- Refuses a transaction for another chain. -/
def verifyChainId (tx : Transaction) (expected : Word) : Except Error Unit :=
  match tx.chainId? with
  | some got => if got ≠ expected then .error (.chainMismatch expected got) else .ok ()
  | none => .ok ()

end Transaction
end EthWire
