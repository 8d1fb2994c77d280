/-
# Reading records from JSON

A decoder turns a tree into a value of some type, within a number of levels that lists and objects may
still nest. A record is read from an object: keys it does not know are skipped whatever their values
are, a key it knows must not be repeated, and a missing one stands for its default if it has one. A
list of the fields in order is read as well, where the fields at its end may be missing.

Key definitions: `Json.Decoder`, `Json.Decoder.run?`, `Json.Record`, `Json.Record.open?`.
-/
import EthWire.Json.Value

namespace EthWire
namespace Json

/-- Reads a tree whose lists and objects may nest so many levels deep. -/
abbrev Decoder (α : Type) := (levels : Nat) → Tree → Option α

namespace Decoder

variable {α : Type}

/-- Reads a whole text. -/
def run? (decoder : Decoder α) (text : String) : Option α :=
  Tree.parse? text >>= decoder maxDepth

/-- A string. -/
def string : Decoder String
  | _, .string codes => textOfCodes? codes
  | _, _ => none

/-- A string that is then read by a parser of its own. -/
def parsed {ε : Type} (parse : String → Except ε α) : Decoder α := fun levels tree => do
  (parse (← string levels tree)).toOption

/-- A natural number below 2^64. -/
def uint64 : Decoder UInt64
  | _, .number n =>
    match n.number? with
    | some (.natural n) => some (UInt64.ofNat n)
    | _ => none
  | _, _ => none

/-- Any value. -/
def value : Decoder Value := Tree.value?

/-- Null, or what the decoder reads. -/
def nullable (decoder : Decoder α) : Decoder (Option α)
  | _, .null => some none
  | levels, tree => (decoder levels tree).map some

/-- A list of what the decoder reads. -/
def list (decoder : Decoder α) : Decoder (List α)
  | levels + 1, .list items => items.mapM (decoder levels)
  | _, _ => none

/-- An object with any keys, whose values the decoder reads; of a repeated key the last value
counts. -/
def dictionary (decoder : Decoder α) : Decoder (Dictionary α)
  | levels + 1, .object members =>
    (members.mapM fun (key, tree) => do
      some (← textOfCodes? key, ← decoder levels tree)).map Dictionary.ofList
  | _, _ => none

end Decoder

/-- The fields of a record as they were written, and the levels that are left for them. -/
structure Record where
  levels : Nat
  fields : List (String × Tree)

namespace Record

/-- The members with a known key, if none of these is repeated. -/
def known? (names : List String) (members : List (List Nat × Tree)) :
    Option (List (String × Tree)) := do
  let named ← members.mapM fun (key, tree) => do some (← textOfCodes? key, tree)
  let fields := named.filter fun field => names.contains field.1
  if (fields.map (·.1)).eraseDups.length = fields.length then some fields else none

/-- The fields of an object. -/
def openObject? (names : List String) (levels : Nat) : Tree → Option Record
  | .object members =>
    match levels with
    | levels + 1 => (known? names members).map fun fields => ⟨levels, fields⟩
    | 0 => none
  | _ => none

/-- The fields of an object, or of a list in their order. -/
def open? (names : List String) (levels : Nat) : Tree → Option Record
  | .list items =>
    match levels with
    | levels + 1 => if items.length ≤ names.length then some ⟨levels, names.zip items⟩ else none
    | 0 => none
  | tree => openObject? names levels tree

variable {α : Type}

/-- A field that must be there. -/
def required? (record : Record) (name : String) (decoder : Decoder α) : Option α := do
  decoder record.levels (← record.fields.lookup name)

/-- A field that stands for its default where it is missing. -/
def withDefault? (record : Record) (name : String) (default : α) (decoder : Decoder α) :
    Option α :=
  match record.fields.lookup name with
  | some tree => decoder record.levels tree
  | none => some default

/-- A field that may be missing or null. -/
def optional? (record : Record) (name : String) (decoder : Decoder α) : Option (Option α) :=
  record.withDefault? name none decoder.nullable

end Record
end Json
end EthWire
