/-
# Access lists

A transaction may declare which accounts and which of their storage slots it is going to touch.

Key definitions: `AccessEntry`, `AccessEntry.toItem`, `AccessEntry.ofItem`,
`AccessEntry.listToItem`, `AccessEntry.listOfItem`, `Word.listToItem`, `Word.listOfItem`.
-/
import EthWire.Address.Basic
import EthWire.Json.Decoder
import EthWire.Json.Printer

namespace EthWire

namespace Word

/-- Words as a list of strings of 32 octets. -/
def listToItem (words : List Word) : Rlp.Item :=
  .list (words.map Rlp.Item.ofHash)

/-- The words in a list of strings of 32 octets. -/
def listOfItem (item : Rlp.Item) : Except Error (List Word) := do
  (← item.asList).mapM Rlp.Item.toHash

end Word

/-- An account and those of its storage slots that a transaction declares. -/
structure AccessEntry where
  address : Address
  storageKeys : List Word
  deriving DecidableEq, Repr

namespace AccessEntry

/-- The entry as a pair. -/
def toItem (entry : AccessEntry) : Rlp.Item :=
  .list [entry.address.toItem, Word.listToItem entry.storageKeys]

/-- The entry in a pair. -/
def ofItem (item : Rlp.Item) : Except Error AccessEntry := do
  match ← item.asList with
  | [address, storageKeys] =>
    let storageKeys ← Word.listOfItem storageKeys
    return ⟨← Address.ofItem address, storageKeys⟩
  | _ => throw .rlpShape

/-- A list of entries. -/
def listToItem (entries : List AccessEntry) : Rlp.Item :=
  .list (entries.map toItem)

/-- The entries in a list. -/
def listOfItem (item : Rlp.Item) : Except Error (List AccessEntry) := do
  (← item.asList).mapM ofItem

/-! ### JSON -/

/-- Reads a record. -/
def decoder : Json.Decoder AccessEntry := fun levels tree => do
  let record ← Json.Record.open? ["address", "storageKeys"] levels tree
  return ⟨← record.required? "address" (Json.Decoder.parsed Address.parse),
    ← record.required? "storageKeys" (Json.Decoder.list (Json.Decoder.parsed Word.ofHex))⟩

/-- The text of a record. -/
def json (entry : AccessEntry) : String :=
  Json.objectText
    [("address", Json.quote entry.address.checksum),
      ("storageKeys", Json.listText (entry.storageKeys.map fun key => Json.quote (Hex.word key)))]

end AccessEntry
end EthWire
