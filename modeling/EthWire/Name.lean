/-
# Names

A dotted name is hashed label by label from the right: the node of the empty name is zero, and a label
in front of a name hashes the name's node together with the label's own digest. A label that is known
only by its digest is written in square brackets, as 64 hex digits.

Key definitions: `Name.encodedLabel?`, `Name.labelDigest`, `Name.node`.
-/
import EthWire.Hash.Keccak
import EthWire.Text.HexReader

namespace EthWire
namespace Name

/-- What stands between square brackets. -/
def bracketContent? (label : List Char) : Option (List Char) :=
  match label with
  | '[' :: rest => if rest.getLast? = some ']' then some rest.dropLast else none
  | _ => none

/-- The digest that a label in brackets holds, if its content takes 64 octets and reads as hex text.
Such a text denotes 32 octets unless it starts with `0x`, which is a failure. -/
def encodedLabel? (label : String) : Except Error (Option Word) := do
  match bracketContent? label.toList with
  | none => return none
  | some content =>
    let text := String.ofList content
    if Text.octetCount text ≠ 64 then return none
    match Hex.decode text with
    | .error _ => return none
    | .ok bytes =>
      if bytes.length ≠ 32 then throw (.wordSize bytes.length)
      return some (Word.ofBytes bytes)

/-- The digest of a label; the empty one has the digest zero. -/
def labelDigest (label : String) : Except Error Word := do
  if label.isEmpty then return 0
  match ← encodedLabel? label with
  | some word => return word
  | none => return keccak256 (Text.octets label)

/-- The node of the label in front of a name with the given node. -/
def child (node : Word) (label : String) : Except Error Word := do
  let digest ← labelDigest label
  return keccak256 (node.toBytes ++ digest.toBytes)

/-- The node of a name. -/
def node (name : String) : Except Error Word :=
  if name.isEmpty then .ok 0
  else
    let labels := (Text.splitWhere (· == '.') name.toList).map String.ofList
    labels.reverse.foldlM child 0

end Name
end EthWire
