/-
# Transactions of other chains

A chain can have types of transactions besides the common five. Such a custom transaction is a type
octet, a list of fields and perhaps a signature behind them.

A `ChainCodec` says which types a chain adds: how they are written, how they are read, and what chain id
they are for. What a codec does not claim is left to the common types.

Key definitions: `ChainTransaction`, `ChainCodec`, `ChainTransaction.customBytes`,
`ChainTransaction.readCustom?`.
-/
import EthWire.Rlp.Decoding
import EthWire.Transaction.Basic

namespace EthWire

/-- A common transaction or one of a type that a chain adds. -/
inductive ChainTransaction where
  | standard (tx : Transaction)
  | custom (typeByte : UInt8) (fields : List Rlp.Item) (signature : Option Signature)
  deriving DecidableEq, Repr

namespace ChainTransaction

/-- The octet of the type, if it has one. -/
def typeByte? : ChainTransaction → Option UInt8
  | standard tx => tx.kind.typeByte?
  | custom typeByte .. => some typeByte

/-- The signature, if there is one. -/
def signature? : ChainTransaction → Option Signature
  | standard tx => tx.signature
  | custom _ _ signature => signature

/-- The fields of a custom transaction of the type. -/
def customFields? (wanted : UInt8) : ChainTransaction → Option (List Rlp.Item)
  | custom typeByte fields _ => if typeByte = wanted then some fields else none
  | standard _ => none

/-- The octet of a type and the list of the fields, with a signature behind them or none. -/
def customBytes (typeByte : UInt8) (fields : List Rlp.Item) (signature : Option Signature) : Bytes :=
  typeByte :: Rlp.encode (.list (fields ++ (signature.map Signature.toItems).getD []))

/-- The items of a list of one of the lengths. -/
def readList (name : String) (counts : List Nat) (bytes : Bytes) :
    Except Error (List Rlp.Item) := do
  let items ← (← Rlp.decode bytes).asList
  if counts.contains items.length then return items
  else throw (.txFieldCount name counts items.length)

/-- The items of the list behind the octet of a type, if the octets start with that one. -/
def readCustom? (typeByte : UInt8) (name : String) (counts : List Nat) (bytes : Bytes) :
    Option (Except Error (List Rlp.Item)) :=
  match bytes with
  | [] => none
  | first :: rest => if first = typeByte then some (readList name counts rest) else none

end ChainTransaction

/-- The types of transactions that a chain adds. Each function gives nothing for what the chain leaves
to the common types. -/
structure ChainCodec where
  /-- The fields before the signature. -/
  fields? : ChainTransaction → Option (List Rlp.Item)
  /-- The written form with a signature or none. -/
  write? : ChainTransaction → Option Signature → Option Bytes
  /-- The transaction that octets spell. -/
  read? : Bytes → Option (Except Error ChainTransaction)
  /-- The chain that a transaction is for, if it says so. -/
  chainId? : ChainTransaction → Option Word

end EthWire
