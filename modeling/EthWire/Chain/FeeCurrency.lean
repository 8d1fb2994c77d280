/-
# Gas paid in another currency

A transaction with a fee currency is an EIP-1559 transaction with one more field, the contract of the
token in which its gas is paid.

Reading one asks that the chain id and the fees are numbers, that the tip is not above the fee cap, and
that the currency is an address. The other fields are kept as they are.

Key definitions: `FeeCurrency.ofTransaction`, `FeeCurrency.currency?`, `FeeCurrency.codec`.
-/
import EthWire.Chain.Transaction
import EthWire.Transaction.Encoding

namespace EthWire
namespace FeeCurrency

/-- The octet of the type. -/
def typeByte : UInt8 := 0x7b

/-- The name of the type in reports. -/
def name : String := "celo cip64"

/-- How many fields there are before the signature. -/
def fieldCount : Nat := 10

/-- The transaction with the currency behind its fields. -/
def ofTransaction (tx : Transaction) (currency : Address) : Except Error ChainTransaction := do
  if tx.kind ≠ .eip1559 then
    throw (.chainEnvelope ("cip64 needs an eip1559 transaction, got " ++ tx.kind.name))
  tx.validate
  return .custom typeByte (tx.fields ++ [currency.toItem]) none

/-- The token in which gas is paid. -/
def currency? (tx : ChainTransaction) : Option Address := do
  let fields ← tx.customFields? typeByte
  (Address.ofItem (← fields[9]?)).toOption

/-- Refuses fields that cannot be those of a transaction with a fee currency. -/
def checkFields : List Rlp.Item → Except Error Unit
  | chainId :: _ :: maxPriorityFee :: maxFee :: _ :: _ :: _ :: _ :: _ :: currency :: _ => do
    let _ ← chainId.toWord
    let maxPriorityFee ← maxPriorityFee.toWord
    let maxFee ← maxFee.toWord
    FeeCaps.check ⟨maxFee, maxPriorityFee⟩
    let _ ← Address.ofItem currency
    return ()
  | items => .error (.txFieldCount name [fieldCount, fieldCount + 3] items.length)

/-- The transaction in a list of fields. -/
def ofItems (items : List Rlp.Item) : Except Error ChainTransaction := do
  let signature ← Signature.ofItems (items.drop fieldCount)
  let fields := items.take fieldCount
  checkFields fields
  return .custom typeByte fields signature

/-- Fee currencies as an addition to a chain. -/
def codec : ChainCodec where
  fields? tx := tx.customFields? typeByte
  write? tx signature := (tx.customFields? typeByte).map fun fields =>
    ChainTransaction.customBytes typeByte fields signature
  read? bytes := (ChainTransaction.readCustom? typeByte name [fieldCount, fieldCount + 3] bytes).map
    fun items => items >>= ofItems
  chainId? tx := do
    let fields ← tx.customFields? typeByte
    (← fields.head?).toWord.toOption

end FeeCurrency
end EthWire
