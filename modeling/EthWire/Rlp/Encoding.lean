/-
# The written form of RLP items

An item is a header and a payload. The header gives the kind and the payload's length: in the header
octet itself up to 55, and beyond that as octets of their own, whose number is in the header octet.
The one exception is a single octet below 0x80, which is its own encoding.

Key definitions: `Rlp.header`, `Rlp.encode`, `Rlp.encodeAll`.
-/
import EthWire.Rlp.Item

namespace EthWire
namespace Rlp

/-- The header of a payload: `base` is 0x80 for a string and 0xc0 for a list. -/
def header (base : UInt8) (length : Nat) : Bytes :=
  if length ≤ 55 then [base + UInt8.ofNat length]
  else
    let octets := Bytes.significant (Bytes.toBigEndian 8 length)
    (base + 55 + UInt8.ofNat octets.length) :: octets

/-- The encoding of an octet string. -/
def encodeBytes (content : Bytes) : Bytes :=
  match content with
  | [b] => if b < 0x80 then [b] else header 0x80 1 ++ [b]
  | _ => header 0x80 content.length ++ content

mutual

/-- The canonical encoding of an item. -/
def encode : Item → Bytes
  | .bytes content => encodeBytes content
  | .list items =>
    let payload := encodeAll items
    header 0xc0 payload.length ++ payload

/-- The encodings of the items, back to back. -/
def encodeAll : List Item → Bytes
  | [] => []
  | item :: items => encode item ++ encodeAll items

end

theorem encodeAll_eq_flatMap (items : List Item) : encodeAll items = items.flatMap encode := by
  induction items with
  | nil => simp [encodeAll]
  | cons item items ih => simp [encodeAll, ih]

end Rlp
end EthWire
