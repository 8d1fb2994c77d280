/-
# Described parameters

The interface description of a contract gives each parameter as a JSON record: a name, the text of its
type, and for tuples the records of the members. The type text of a tuple is the word `tuple` and its
array suffixes, and the members come from the records; any other text stands for itself.

Key definitions: `Abi.Parameter`, `Abi.Parameter.kind`, `Abi.Parameter.decoder`,
`Abi.Parameter.json`.
-/
import EthWire.Abi.KindReader
import EthWire.Abi.Layout
import EthWire.Abi.Reading
import EthWire.Json.Decoder
import EthWire.Json.Printer

namespace EthWire
namespace Abi

/-- A parameter as the interface description of a contract gives it. -/
inductive Parameter where
  | mk (name : Option String) (type : String) (components : Option (List Parameter))
  deriving Repr

namespace Parameter

/-- The suffix of a type text whose members come from the records of the parameter. -/
def tupleSuffix? (type : List Char) : Option (List Char) :=
  (Text.afterFront? "tuple".toList type).filter fun suffix => suffix.head? ≠ some '('

mutual

/-- The type that a parameter describes. -/
def kind : Parameter → Except Error Kind
  | .mk _ type components =>
    match tupleSuffix? type.toList with
    | none => Kind.parse type.toList
    | some suffix =>
      match components with
      | none => .error (.abiType type)
      | some members => do (Kind.tuple (← kinds members)).withSuffix suffix

/-- The types that parameters describe. -/
def kinds : List Parameter → Except Error (List Kind)
  | [] => .ok []
  | p :: ps => do
    let first ← kind p
    return first :: (← kinds ps)

end

/-! ### JSON -/

/-- Reads a record. -/
def decoder : Json.Decoder Parameter
  | 0, _ => none
  | levels + 1, tree => do
    let record ← Json.Record.open? ["name", "type", "components"] (levels + 1) tree
    let name ← record.optional? "name" Json.Decoder.string
    let type ← record.required? "type" Json.Decoder.string
    let components ← record.optional? "components" fun _ tree =>
      match levels, tree with
      | levels + 1, .list items => items.mapM (decoder levels)
      | _, _ => none
    return .mk name type components

mutual

/-- The text of a record; what is missing is left out. -/
def json : Parameter → String
  | .mk name type components =>
    Json.objectText
      ((name.map fun n => ("name", Json.quote n)).toList ++ [("type", Json.quote type)] ++
        match components with
        | none => []
        | some members => [("components", Json.listText (jsons members))])

/-- The texts of records. -/
def jsons : List Parameter → List String
  | [] => []
  | p :: ps => json p :: jsons ps

end

end Parameter

/-- The values of described parameters. -/
def encodeParameters (parameters : List Parameter) (values : List Value) : Except Error Bytes := do
  encode (← Parameter.kinds parameters) values

/-- The values of described parameters at the start of the data. -/
def decodeParameters (parameters : List Parameter) (data : Bytes) : Except Error (List Value) := do
  decode (← Parameter.kinds parameters) data

end Abi
end EthWire
