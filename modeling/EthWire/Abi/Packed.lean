/-
# The packed form

Packed values are written one after another without lengths or offsets: integers and fixed bytes at
the width of their type, strings and octets as they are. The elements of an array are written as whole
words, except strings and octets. Tuples have no packed form.

Key definitions: `Abi.packValue`, `Abi.packAll`, `Abi.encodePacked`.
-/
import EthWire.Abi.Layout

namespace EthWire
namespace Abi

/-- The low octets of a word for its width, or the whole word inside an array. -/
def packWord (inArray : Bool) (bits : Nat) (word : Word) : Bytes :=
  if inArray then word.toBytes else word.toBytes.drop (32 - bits / 8)

mutual

/-- The packed form of a value. -/
def packValue (inArray : Bool) : Kind → Value → Except Error Bytes
  | .uint bits, .uint word =>
    (checkedInteger (.uint bits) (fitsUint word bits) word).map (packWord inArray bits)
  | .int bits, .int word =>
    (checkedInteger (.int bits) (fitsInt word bits) word).map (packWord inArray bits)
  | .address, .address a => .ok (packWord inArray 160 a.toWord)
  | .bool, .bool value => .ok (packWord inArray 8 (boolWord value))
  | .fixedBytes size, .fixedBytes content =>
    (checkedFixedBytes size content).map (if inArray then Bytes.padRight else id)
  | .bytes, .bytes content => .ok content
  | .string, .string content => .ok (Text.octets content)
  | .array elem, .array items => packAll elem items
  | .fixedArray elem length, .fixedArray items =>
    if items.length ≠ length then .error (.abiCount length items.length) else packAll elem items
  | .tuple members, _ => .error (.abiType (Kind.tuple members).text)
  | kind, _ => .error (.abiMismatch kind.text)

/-- The packed elements of an array. -/
def packAll (elem : Kind) : List Value → Except Error Bytes
  | [] => .ok []
  | item :: items => do
    let first ← packValue true elem item
    return first ++ (← packAll elem items)

end

/-- The packed values of a parameter list. -/
def encodePacked (kinds : List Kind) (values : List Value) : Except Error Bytes := do
  if kinds.length ≠ values.length then throw (.abiCount kinds.length values.length)
  let pieces ← (kinds.zip values).mapM fun (kind, value) => packValue false kind value
  return pieces.flatten

end Abi
end EthWire
