/-
# RLP items

Recursive length prefix data knows two things: octet strings, and lists of items. Everything else is a
convention on top: a number is the string of its big-endian octets without leading zeros, so zero is
the empty string, and a flag is the number one or zero.

Reading a convention back is strict. A number with a leading zero, or with more octets than its field
holds, is no number, so every value has one item that stands for it.

Key definitions: `Rlp.Item`, `Rlp.Item.ofWord`, `Rlp.Item.ofUInt64`, `Rlp.Item.ofBool`,
`Rlp.Item.asBytes`, `Rlp.Item.asList`, `Rlp.Item.toWord`, `Rlp.Item.toUInt64`.
-/
import EthWire.Text.HexReader

namespace EthWire
namespace Rlp

/-- An octet string or a list of items. -/
inductive Item where
  | bytes (content : Bytes)
  | list (items : List Item)
  deriving Repr

namespace Item

mutual

/-- Whether two items are the same. -/
def decEq : (a b : Item) → Decidable (a = b)
  | .bytes a, .bytes b => if h : a = b then isTrue (h ▸ rfl) else isFalse (by simpa using h)
  | .list a, .list b =>
    match decEqAll a b with
    | isTrue h => isTrue (h ▸ rfl)
    | isFalse h => isFalse (by simpa using h)
  | .bytes _, .list _ => isFalse (by simp)
  | .list _, .bytes _ => isFalse (by simp)

/-- Whether two lists hold the same items. -/
def decEqAll : (a b : List Item) → Decidable (a = b)
  | [], [] => isTrue rfl
  | a :: as, b :: bs =>
    match decEq a b, decEqAll as bs with
    | isTrue h, isTrue hs => isTrue (by rw [h, hs])
    | isFalse h, _ => isFalse (by simp [h])
    | _, isFalse hs => isFalse (by simp [hs])
  | [], _ :: _ => isFalse (by simp)
  | _ :: _, [] => isFalse (by simp)

end

instance : DecidableEq Item := decEq

/-- The empty string, which is also the number zero. -/
def empty : Item := .bytes []

/-! ### Numbers and flags as items -/

/-- The item of a word read as a number. -/
def ofWord (word : Word) : Item :=
  .bytes (Bytes.significant word.toBytes)

/-- The item of a number of 64 bits. -/
def ofUInt64 (n : UInt64) : Item :=
  .bytes (Bytes.significant (Bytes.toBigEndian 8 n.toNat))

/-- The item of a flag. -/
def ofBool (flag : Bool) : Item :=
  ofUInt64 (if flag then 1 else 0)

/-- A word as a string of all its 32 octets. -/
def ofHash (word : Word) : Item :=
  .bytes word.toBytes

/-! ### Reading items -/

/-- The content of a string. -/
def asBytes : Item → Except Error Bytes
  | .bytes content => .ok content
  | .list _ => .error .rlpShape

/-- The items of a list. -/
def asList : Item → Except Error (List Item)
  | .list items => .ok items
  | .bytes _ => .error .rlpShape

/-- The octets of a number that fits `max` octets and has no leading zero. -/
def integerOctets (max : Nat) (item : Item) : Except Error Bytes := do
  let content ← item.asBytes
  if content.length > max then throw (.rlpIntegerSize content.length max)
  if content.head? = some 0 then throw .rlpLeadingZero
  return content

/-- The word of a number of at most 32 octets. -/
def toWord (item : Item) : Except Error Word :=
  (item.integerOctets 32).map Word.ofBytes

/-- The number of 64 bits into which octets are shifted one after another. -/
def shiftIn (content : Bytes) : UInt64 :=
  content.foldl (fun n b => n <<< 8 ||| b.toUInt64) 0

/-- The number of at most 8 octets. -/
def toUInt64 (item : Item) : Except Error UInt64 :=
  (item.integerOctets 8).map shiftIn

/-- The word of exactly 32 octets. -/
def toHash (item : Item) : Except Error Word :=
  item.asBytes >>= Word.ofBytesExactly

/-- A flag, written as the number zero or one; another number is the given failure. -/
def toBool (other : Error) (item : Item) : Except Error Bool := do
  let n ← item.toUInt64
  if n = 0 then return false
  else if n = 1 then return true
  else throw other

end Item
end Rlp
end EthWire
