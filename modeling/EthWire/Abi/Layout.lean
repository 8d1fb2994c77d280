/-
# The head and tail layout

A sequence of values is written as a head and a tail. In the head a static value stands itself, and
for a dynamic one the offset, from the start of the head, at which it stands in the tail. Arrays of
any length put their length in front of such a sequence, strings put it in front of their octets,
which are padded to whole words.

The first value that does not fit its type decides the failure, unless the head of a sequence around it
cannot be counted or is too large: heads are counted and set aside before the values are looked at. Of an
empty array no head is counted.

Key definitions: `Abi.Part`, `Abi.layout`, `Abi.behindHead`, `Abi.encodeValue`, `Abi.encodeParts`,
`Abi.encode`, `Abi.encodeUntyped`.
-/
import EthWire.Abi.Value

namespace EthWire
namespace Abi

/-- A written value and whether it goes into the tail. -/
structure Part where
  isDynamic : Bool
  body : Bytes
  deriving Repr

/-- The word of a count of 64 bits. -/
def countWord (n : Nat) : Bytes :=
  Word.toBytes (BitVec.ofNat 256 (n % 2 ^ 64))

/-- The head of a sequence, `offset` being where the next dynamic value will stand. -/
def heads (offset : Nat) : List Part → Bytes
  | [] => []
  | ⟨true, body⟩ :: parts => countWord offset ++ heads (offset + body.length) parts
  | ⟨false, body⟩ :: parts => body ++ heads offset parts

/-- The tail of a sequence. -/
def tails (parts : List Part) : Bytes :=
  parts.flatMap fun part => if part.isDynamic then part.body else []

/-- The head and the tail of a sequence with a head of the given size. -/
def layout (headSize : Nat) (parts : List Part) : Bytes :=
  heads headSize parts ++ tails parts

/-- The most octets that can be set aside for a head. -/
def maxHeadSize : Nat := 2 ^ 63 - 1

/-- The parts of a sequence, written once its head has been counted and set aside. There is no memory for a
head above the limit, nor for the values that would fill it: so a value is missing or does not fit, but that
the head is too large, or even no count of 64 bits, is found first. -/
def behindHead (counted : Bool) (headSize : Nat) (parts : Except Error (List Part)) : Except Error (List Part) :=
  if !counted then .error .abiHeadSum
  else if headSize ≤ maxHeadSize then parts
  else parts.mapError fun _ => if headSize ≤ maxCount then .abiHeadSize headSize else .abiHeadSum

/-- What is written is not touched by the limit. -/
@[simp] theorem behindHead_eq_ok_iff {counted : Bool} {headSize : Nat} {parts : Except Error (List Part)}
    {written : List Part} :
    behindHead counted headSize parts = .ok written ↔ counted = true ∧ parts = .ok written := by
  unfold behindHead
  cases counted with
  | false => simp
  | true =>
    rw [if_neg (by decide), and_iff_right rfl]
    by_cases hsize : headSize ≤ maxHeadSize
    · rw [if_pos hsize]
    · rw [if_neg hsize]
      cases parts with
      | ok parts => exact Iff.rfl
      | error cause => exact iff_of_false (fun h => by cases h) (fun h => by cases h)

/-- Octets behind their length, padded to whole words. -/
def withLength (content : Bytes) : Bytes :=
  countWord content.length ++ Bytes.padRight content

/-- The word of a flag. -/
def boolWord (value : Bool) : Word :=
  if value then 1 else 0

/-- The octets of a fixed bytes value of the size that its type asks for. -/
def checkedFixedBytes (size : Nat) (content : Bytes) : Except Error Bytes :=
  if size < 1 ∨ 32 < size then .error (.abiType (Kind.fixedBytes size).text)
  else if content.length ≠ size then .error (.abiBytesSize size content.length)
  else .ok content

/-- The word of an integer that fits its type. -/
def checkedInteger (kind : Kind) (fits : Bool) (word : Word) : Except Error Word :=
  if fits then .ok word else .error (.abiRange kind.text)

mutual

/-- The written form of a value. -/
def encodeValue : Kind → Value → Except Error Bytes
  | .uint bits, .uint word => (checkedInteger (.uint bits) (fitsUint word bits) word).map Word.toBytes
  | .int bits, .int word => (checkedInteger (.int bits) (fitsInt word bits) word).map Word.toBytes
  | .address, .address a => .ok a.toWord.toBytes
  | .bool, .bool value => .ok (boolWord value).toBytes
  | .fixedBytes size, .fixedBytes content => (checkedFixedBytes size content).map Bytes.padRight
  | .bytes, .bytes content => .ok (withLength content)
  | .string, .string content => .ok (withLength (Text.octets content))
  | .array elem, .array items => do
    let parts ← behindHead (items.isEmpty || elem.isCounted) (items.length * elem.headSize)
      (encodeParts (List.replicate items.length elem) items)
    return countWord items.length ++ layout (items.length * elem.headSize) parts
  | .fixedArray elem length, .fixedArray items => do
    if items.length ≠ length then throw (.abiCount length items.length)
    let parts ← behindHead (items.isEmpty || elem.isCounted) (items.length * elem.headSize)
      (encodeParts (List.replicate items.length elem) items)
    return layout (items.length * elem.headSize) parts
  | .tuple members, .tuple items => do
    if items.length ≠ members.length then throw (.abiCount members.length items.length)
    let parts ← behindHead (Kind.allCounted members) (Kind.headSizes members) (encodeParts members items)
    return layout (Kind.headSizes members) parts
  | kind, _ => .error (.abiMismatch kind.text)

/-- The written forms of values, one after another, each against its type. -/
def encodeParts : List Kind → List Value → Except Error (List Part)
  | kind :: kinds, value :: values => do
    let body ← encodeValue kind value
    return ⟨kind.isDynamic, body⟩ :: (← encodeParts kinds values)
  | _, _ => .ok []

end

/-- The values of a parameter list. -/
def encode (kinds : List Kind) (values : List Value) : Except Error Bytes := do
  if kinds.length ≠ values.length then throw (.abiCount kinds.length values.length)
  let parts ← behindHead (Kind.allCounted kinds) (Kind.headSizes kinds) (encodeParts kinds values)
  return layout (Kind.headSizes kinds) parts

/-- Values against the types that they suggest. -/
def encodeUntyped (values : List Value) : Except Error Bytes :=
  encode (Value.kinds values) values

end Abi
end EthWire
