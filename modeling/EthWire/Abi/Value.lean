/-
# ABI values

A value says how it is to be written and nothing about widths: an integer is a word, and only the type
it is written against decides whether it fits. A signed integer is held as its two's complement word.

Without a type at hand, a value can be written against the type that it suggests itself; an array
suggests the type of its first element.

Key definitions: `Abi.Value`, `Abi.Value.ofInt`, `Abi.Value.toInt128?`, `Abi.Value.kind`,
`Abi.fitsUint`, `Abi.fitsInt`.
-/
import EthWire.Abi.Kind
import EthWire.Address.Basic

namespace EthWire
namespace Abi

/-- The values of contract calls. -/
inductive Value where
  | uint (word : Word)
  /-- A signed integer as its two's complement word. -/
  | int (word : Word)
  | address (address : Address)
  | bool (value : Bool)
  | fixedBytes (content : Bytes)
  | bytes (content : Bytes)
  | string (content : String)
  | array (items : List Value)
  | fixedArray (items : List Value)
  | tuple (members : List Value)
  deriving Repr

/-- The octets of a word above its low `bits` bits. -/
def highOctets (word : Word) (bits : Nat) : Bytes :=
  word.toBytes.take (32 - bits / 8)

/-- The octets that a word has above a width if it is the sign extension of its low part. -/
def signFill (word : Word) (bits : Nat) : UInt8 :=
  if (word.toBytes.getD (32 - bits / 8) 0) &&& 0x80 ≠ 0 then 0xff else 0

/-- Whether nothing of a word lies above a width. -/
def fitsUint (word : Word) (bits : Nat) : Bool :=
  (highOctets word bits).all (· == 0)

/-- Whether a word is the sign extension of its low part. -/
def fitsInt (word : Word) (bits : Nat) : Bool :=
  (highOctets word bits).all (· == signFill word bits)

namespace Value

/-- The signed value of an integer of 128 bits: the octets of its two's complement, behind as many that
repeat its sign. -/
def ofInt (n : Int) : Value :=
  let fill : UInt8 := if n < 0 then 0xff else 0
  .int (Word.ofBytes (List.replicate 16 fill ++ Bytes.toBigEndian 16 (BitVec.ofInt 128 n).toNat))

/-- The integer of a signed value that fits 128 bits, read from the lower half of its octets. -/
def toInt128? : Value → Option Int
  | .int word =>
    if fitsInt word 128 then some (BitVec.ofNat 128 (Bytes.ofBigEndian (word.toBytes.drop 16))).toInt
    else none
  | _ => none

mutual

/-- The type that a value suggests. -/
def kind : Value → Kind
  | .uint _ => .uint 256
  | .int _ => .int 256
  | .address _ => .address
  | .bool _ => .bool
  | .fixedBytes content => .fixedBytes content.length
  | .bytes _ => .bytes
  | .string _ => .string
  | .array items => .array (elementKind items)
  | .fixedArray items => .fixedArray (elementKind items) items.length
  | .tuple members => .tuple (kinds members)

/-- The type that the elements of an array suggest. An empty array is written alike whatever they
might have been. -/
def elementKind : List Value → Kind
  | [] => .uint 256
  | first :: _ => first.kind

/-- The types that values suggest. -/
def kinds : List Value → List Kind
  | [] => []
  | value :: values => value.kind :: kinds values

end

end Value
end Abi
end EthWire
