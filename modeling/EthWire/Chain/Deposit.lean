/-
# Deposits

A deposit moves value from the chain below to this one. It is made by the bridge and nobody signs it, so
it has no signature, no nonce and no chain id.

Key definitions: `Deposit`, `Deposit.toItems`, `Deposit.ofItems`, `Deposit.hash`, `Deposit.codec`.
-/
import EthWire.Chain.Transaction
import EthWire.Transaction.Decoding

namespace EthWire

/-- Value that comes from the chain below. -/
structure Deposit where
  sourceHash : Word
  sender : Address
  /-- Who receives the value; nobody when a contract is created. -/
  «to» : Option Address
  mint : Word
  value : Word
  gas : UInt64
  isSystem : Bool
  data : Bytes
  deriving DecidableEq, Repr

namespace Deposit

/-- The octet of the type. -/
def typeByte : UInt8 := 0x7e

/-- The name of the type in reports. -/
def name : String := "op deposit"

/-- How many fields there are. -/
def fieldCount : Nat := 8

/-- The fields in order. -/
def toItems (deposit : Deposit) : List Rlp.Item :=
  [.ofHash deposit.sourceHash, deposit.sender.toItem, Transaction.recipientToItem deposit.to,
    .ofWord deposit.mint, .ofWord deposit.value, .ofUInt64 deposit.gas, .ofBool deposit.isSystem,
    .bytes deposit.data]

/-- The first item, which is the named field, and those behind it. -/
def nextField (field : String) : List Rlp.Item → Except Error (Rlp.Item × List Rlp.Item)
  | [] => .error (.missingField name field)
  | item :: rest => .ok (item, rest)

/-- The deposit in a list of fields; items behind them are not looked at. -/
def ofItems (items : List Rlp.Item) : Except Error Deposit := do
  let (sourceHash, items) ← nextField "source_hash" items
  let sourceHash ← sourceHash.toHash
  let (sender, items) ← nextField "from" items
  let sender ← Address.ofItem sender
  let (recipient, items) ← nextField "to" items
  let recipient ← Transaction.recipientOfItem recipient
  let (mint, items) ← nextField "mint" items
  let mint ← mint.toWord
  let (value, items) ← nextField "value" items
  let value ← value.toWord
  let (gas, items) ← nextField "gas" items
  let gas ← gas.toUInt64
  let (isSystem, items) ← nextField "is_system_tx" items
  let isSystem ← isSystem.toBool .rlpShape
  let (data, _) ← nextField "data" items
  let data ← data.asBytes
  return ⟨sourceHash, sender, recipient, mint, value, gas, isSystem, data⟩

/-- The deposit as a transaction. -/
def toTransaction (deposit : Deposit) : ChainTransaction :=
  .custom typeByte deposit.toItems none

/-- The deposit that a transaction is. -/
def ofTransaction (tx : ChainTransaction) : Except Error Deposit :=
  match tx.customFields? typeByte with
  | some fields => ofItems fields
  | none => .error (.txType (tx.typeByte?.getD 0))

/-- The written form. -/
def toBytes (deposit : Deposit) : Bytes :=
  ChainTransaction.customBytes typeByte deposit.toItems none

/-- The digest of the written form. -/
def hash (deposit : Deposit) : Word :=
  keccak256 deposit.toBytes

/-- Deposits as an addition to a chain. A signature is never written. -/
def codec : ChainCodec where
  fields? tx := tx.customFields? typeByte
  write? tx _ := (tx.customFields? typeByte).map fun fields =>
    ChainTransaction.customBytes typeByte fields none
  read? bytes := (ChainTransaction.readCustom? typeByte name [fieldCount] bytes).map fun items =>
    (items >>= ofItems).map toTransaction
  chainId? _ := none

end Deposit
end EthWire
