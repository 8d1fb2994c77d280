/-
# Transaction requests

A caller says as much about a transaction as it cares to: every field of a request is optional, the
type included. Which type is meant follows from the fields that are present. Some fields belong to one
family of types only; fields of two families at once are a contradiction, and so is a field that an
explicitly named type does not carry.

A request that is complete is built into a transaction without a signature. What may be missing is
zero or empty then; the fields that a type cannot do without must be there.

Key definitions: `Request`, `Request.inferKind`, `Request.validate`, `Request.assemble`, `Request.build`.
-/
import EthWire.Transaction.Basic

namespace EthWire

/-- What a caller says about a transaction. -/
structure Request where
  kind : Option TxKind
  chainId : Option Word
  nonce : Option Word
  gasPrice : Option Word
  maxFee : Option Word
  maxPriorityFee : Option Word
  gasLimit : Option Word
  «to» : Option Address
  value : Option Word
  data : Option Bytes
  accessList : Option (List AccessEntry)
  maxFeePerBlobGas : Option Word
  blobHashes : Option (List Word)
  sidecars : Option (List Sidecar)
  authorizations : Option (List SignedAuthorization)
  deriving DecidableEq, Repr

namespace Request

/-! ### The type -/

/-- A field's name, if the field is present. -/
def named {α : Type} (name : String) (field : Option α) : List String :=
  if field.isSome then [name] else []

/-- The gas price, by its name. -/
def priceFields (request : Request) : List String :=
  named "gasPrice" request.gasPrice

/-- The access list, by its name. -/
def accessFields (request : Request) : List String :=
  named "accessList" request.accessList

/-- The fields of types with a fee cap and a tip, by their names. -/
def feeFields (request : Request) : List String :=
  named "maxFeePerGas" request.maxFee ++ named "maxPriorityFeePerGas" request.maxPriorityFee

/-- The fields of transactions with blobs, by their names. -/
def blobFields (request : Request) : List String :=
  named "maxFeePerBlobGas" request.maxFeePerBlobGas ++
    named "blobVersionedHashes" request.blobHashes ++ named "sidecars" request.sidecars

/-- The field of transactions with authorizations, by its name. -/
def authorizationFields (request : Request) : List String :=
  named "authorizationList" request.authorizations

/-- The fields present that a type does not carry. -/
def foreignFields (request : Request) : TxKind → List String
  | .legacy => request.accessFields ++ request.feeFields ++ request.blobFields ++
      request.authorizationFields
  | .eip2930 => request.feeFields ++ request.blobFields ++ request.authorizationFields
  | .eip1559 => request.priceFields ++ request.blobFields ++ request.authorizationFields
  | .eip4844 => request.priceFields ++ request.authorizationFields
  | .eip7702 => request.priceFields ++ request.blobFields

/-- The fields present that no type carries together. -/
def conflicts (request : Request) : List String :=
  let fees := request.feeFields
  let blobs := request.blobFields
  let authorizations := request.authorizationFields
  if request.gasPrice.isSome ∧ ¬(fees = [] ∧ blobs = [] ∧ authorizations = []) then
    request.priceFields ++ fees ++ blobs ++ authorizations
  else if blobs ≠ [] ∧ authorizations ≠ [] then blobs ++ authorizations
  else []

/-- The first type that carries the fields present. -/
def suggestedKind (request : Request) : TxKind :=
  if request.authorizationFields ≠ [] then .eip7702
  else if request.blobFields ≠ [] then .eip4844
  else if request.feeFields ≠ [] then .eip1559
  else if request.accessList.isSome then .eip2930
  else .legacy

/-- The type that a request means. -/
def inferKind (request : Request) : Except Error TxKind :=
  if request.conflicts ≠ [] then .error (.ambiguousType request.conflicts)
  else
    match request.kind with
    | none => .ok request.suggestedKind
    | some kind =>
      let foreign := request.foreignFields kind
      if foreign = [] then .ok kind else .error (.ambiguousType ("type" :: foreign))

/-! ### Checks -/

/-- The value of a field that the type cannot do without. -/
def required {α : Type} (kind : TxKind) (name : String) : Option α → Except Error α
  | some value => .ok value
  | none => .error (.missingField kind.name name)

/-- The first place where two lists of hashes differ. -/
def firstDifference? (given derived : List Word) : Option Nat :=
  (List.range (max given.length derived.length)).find? fun i => given[i]? != derived[i]?

/-- The blob hashes that are given, or those of the sidecars, or both if they agree. -/
def agreedHashes (request : Request) : Except Error (List Word) :=
  match request.blobHashes, request.sidecars.map (·.map Sidecar.versionedHash) with
  | some given, some derived =>
    match firstDifference? given derived with
    | some i => .error (.versionedHash i ((given[i]?.map Envelope.hashVersion).getD 0))
    | none => .ok given
  | some given, none => .ok given
  | none, some derived => .ok derived
  | none, none => .ok []

/-- The blob hashes of a request, of which there must be some, all of the known version. -/
def hashes (request : Request) : Except Error (List Word) := do
  let hashes ← request.agreedHashes
  if hashes.isEmpty then throw (.missingField TxKind.eip4844.name "blobVersionedHashes")
  Envelope.checkVersions hashes
  return hashes

/-- Refuses a request that could be for any chain, legacy ones excepted, and one for chain zero. -/
def checkChain (request : Request) (kind : TxKind) : Except Error Unit :=
  match request.chainId with
  | some chainId => if chainId = 0 then .error .networkId else .ok ()
  | none => if kind = .legacy then .ok () else .error (.missingField kind.name "chainId")

/-- Refuses a price at which all gas costs more than a word holds. -/
def checkCost (gasLimit price : Word) (name : String) : Except Error Unit :=
  if gasLimit.toNat * price.toNat < 2 ^ 256 then .ok () else .error (.feeOverflow name)

/-- Refuses prices that are missing or out of range. -/
def checkFees (request : Request) (kind : TxKind) (gasLimit : Word) : Except Error Unit := do
  match kind with
  | .legacy | .eip2930 =>
    let gasPrice ← required kind "gasPrice" request.gasPrice
    checkCost gasLimit gasPrice "gasPrice"
  | .eip1559 | .eip4844 | .eip7702 =>
    let maxFee ← required kind "maxFeePerGas" request.maxFee
    let maxPriorityFee ← required kind "maxPriorityFeePerGas" request.maxPriorityFee
    FeeCaps.check ⟨maxFee, maxPriorityFee⟩
    checkCost gasLimit maxFee "maxFeePerGas"

/-- Refuses a request without what only its type needs. -/
def checkSpecial (request : Request) (kind : TxKind) : Except Error Unit := do
  match kind with
  | .eip4844 =>
    let _ ← required kind "to" request.to
    let _ ← required kind "maxFeePerBlobGas" request.maxFeePerBlobGas
    let _ ← request.hashes
  | .eip7702 =>
    let _ ← required kind "to" request.to
    if (request.authorizations.getD []).isEmpty then
      throw (.missingField kind.name "authorizationList")
  | _ => return ()

/-- The type of a request from which a transaction can be built. -/
def validate (request : Request) : Except Error TxKind := do
  let kind ← request.inferKind
  let gasLimit ← required kind "gasLimit" request.gasLimit
  request.checkChain kind
  request.checkFees kind gasLimit
  request.checkSpecial kind
  return kind

/-! ### Building -/

/-- The fee cap and the tip, zero where missing. -/
def feeCaps (request : Request) : FeeCaps :=
  ⟨request.maxFee.getD 0, request.maxPriorityFee.getD 0⟩

/-- The envelope of a type with the fields of a request and the given blob hashes. -/
def envelope (request : Request) (kind : TxKind) (hashes : List Word) : Envelope :=
  let chainId := request.chainId.getD 0
  let gasPrice := request.gasPrice.getD 0
  let recipient := request.to.getD .zero
  let accessList := request.accessList.getD []
  match kind with
  | .legacy => .legacy request.chainId gasPrice request.to
  | .eip2930 => .eip2930 chainId gasPrice request.to accessList
  | .eip1559 => .eip1559 chainId request.feeCaps request.to accessList
  | .eip4844 => .eip4844 chainId request.feeCaps recipient accessList (request.maxFeePerBlobGas.getD 0)
      hashes request.sidecars
  | .eip7702 => .eip7702 chainId request.feeCaps recipient accessList (request.authorizations.getD [])

/-- The transaction of a type with the fields of a request and the given blob hashes, unchecked. What
is missing is zero or empty. -/
def assemble (request : Request) (kind : TxKind) (hashes : List Word) : Transaction where
  envelope := request.envelope kind hashes
  nonce := request.nonce.getD 0
  gasLimit := request.gasLimit.getD 0
  value := request.value.getD 0
  data := request.data.getD []
  signature := none

/-- The transaction that a request asks for, without a signature. -/
def build (request : Request) : Except Error Transaction := do
  let kind ← request.validate
  let hashes ← if kind = .eip4844 then request.hashes else pure []
  return request.assemble kind hashes

end Request
end EthWire
