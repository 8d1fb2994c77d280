/-
# ABI types

The types of contract calls, as far as their layout goes: elementary ones with their widths, arrays of
fixed and of any length, and tuples. A type is dynamic when the size of its values varies; such values
stand behind the head of their sequence, and the head holds where.

Sizes are counts of 64 bits. A fixed array's head size stops at the largest count. The sum over the
members of a tuple has no such stop: where it leaves 64 bits, there is no head size.

Key definitions: `Abi.Kind`, `Abi.Kind.isDynamic`, `Abi.Kind.headSize`, `Abi.Kind.isCounted`,
`Abi.Kind.headSize?`, `Abi.Kind.text`.
-/
import EthWire.Bytes.Basic

namespace EthWire
namespace Abi

/-- The types of contract calls. -/
inductive Kind where
  /-- Unsigned integers of a width in bits. -/
  | uint (bits : Nat)
  /-- Signed integers of a width in bits. -/
  | int (bits : Nat)
  | address
  | bool
  /-- Octet strings of a size from 1 to 32. -/
  | fixedBytes (size : Nat)
  | bytes
  | string
  /-- Arrays of any length. -/
  | array (elem : Kind)
  /-- Arrays of a given length. -/
  | fixedArray (elem : Kind) (length : Nat)
  | tuple (members : List Kind)
  deriving Repr

/-- The largest count of 64 bits. -/
def maxCount : Nat := 2 ^ 64 - 1

namespace Kind

mutual

/-- Whether the values of a type stand behind the head of their sequence. -/
def isDynamic : Kind → Bool
  | .bytes | .string | .array _ => true
  | .fixedArray elem _ => elem.isDynamic
  | .tuple members => anyDynamic members
  | _ => false

/-- Whether one of the types is dynamic. -/
def anyDynamic : List Kind → Bool
  | [] => false
  | kind :: kinds => kind.isDynamic || anyDynamic kinds

end

mutual

/-- The octets that a value of the type takes in the head of its sequence. -/
def headSize : Kind → Nat
  | .fixedArray elem length =>
    if elem.isDynamic then 32 else min (elem.headSize * length) maxCount
  | .tuple members => if anyDynamic members then 32 else headSizes members
  | _ => 32

/-- The octets that values of the types take in the head of their sequence. -/
def headSizes : List Kind → Nat
  | [] => 0
  | kind :: kinds => kind.headSize + headSizes kinds

end

mutual

/-- Whether no sum leaves 64 bits when the head size is counted. Behind the head nothing is counted. -/
def isCounted : Kind → Bool
  | .fixedArray elem _ => elem.isDynamic || elem.isCounted
  | .tuple members => anyDynamic members || (allCounted members && decide (headSizes members ≤ maxCount))
  | _ => true

/-- Whether this is so for all the types. -/
def allCounted : List Kind → Bool
  | [] => true
  | kind :: kinds => kind.isCounted && allCounted kinds

end

/-- The head size as a count of 64 bits, if it can be counted. -/
def headSize? (kind : Kind) : Option Nat :=
  if kind.isCounted then some kind.headSize else none

/-- Texts in parentheses, with commas between them. -/
def parenthesized (texts : List String) : String :=
  "(" ++ ",".intercalate texts ++ ")"

mutual

/-- The canonical text of a type. -/
def text : Kind → String
  | .uint bits => "uint" ++ toString bits
  | .int bits => "int" ++ toString bits
  | .address => "address"
  | .bool => "bool"
  | .fixedBytes size => "bytes" ++ toString size
  | .bytes => "bytes"
  | .string => "string"
  | .array elem => elem.text ++ "[]"
  | .fixedArray elem length => elem.text ++ "[" ++ toString length ++ "]"
  | .tuple members => parenthesized (texts members)

/-- The canonical texts of types. -/
def texts : List Kind → List String
  | [] => []
  | kind :: kinds => kind.text :: texts kinds

end

end Kind
end Abi
end EthWire
