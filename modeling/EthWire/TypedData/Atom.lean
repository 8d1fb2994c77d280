/-
# Atomic values of typed data

An atomic value becomes one word. Integers may be JSON numbers, decimal numerals or hex text; a
negative one is a minus sign in front of a magnitude. Addresses and fixed octet strings are texts. The
value must fit the type that is declared for it.

Key definitions: `readUint`, `readInt`, `readOctets`, `atomWord`.
-/
import EthWire.Abi.KindReader
import EthWire.Abi.Value
import EthWire.Json.Printer

namespace EthWire
namespace TypedData

/-- The failure of a value that does not fit the type declared for it. -/
def invalid {α : Type} (reason : String) : Except Error α :=
  .error (.typedData reason)

/-- The word of an unsigned integer. -/
def readUint : Json.Value → Except Error Word
  | .number (.natural n) => .ok (BitVec.ofNat 256 n)
  | .number n => invalid (n.text ++ " is not an unsigned integer")
  | .string s => do
    if "0x".toList.isPrefixOf s.toList then
      let octets ← Hex.decode s
      if octets.length > 32 then invalid (s ++ " does not fit in 256 bits")
      else return Word.ofBytes octets
    else
      match Word.ofNumeral? s with
      | some word => return word
      | none => invalid (s ++ " is not an unsigned integer")
  | value => invalid (value.text ++ " is not an integer")

/-- The two's complement word of minus a magnitude. A magnitude from 2^255 on is too large, unless it
is a multiple of 2^248. -/
def negative (text : String) (magnitude : Word) : Except Error Word :=
  if magnitude.msb ∧ magnitude.setWidth 248 ≠ 0 then
    invalid (text ++ " does not fit in 256 bits")
  else .ok (-magnitude)

/-- The two's complement word of a signed integer. -/
def readInt (value : Json.Value) : Except Error Word :=
  match value with
  | .number (.negative n) => .ok (-(BitVec.ofNat 256 n))
  | .string s =>
    match s.toList with
    | '-' :: magnitude => readUint (.string (String.ofList magnitude)) >>= negative s
    | _ => positive value
  | _ => positive value
where
  /-- The word of an integer without a minus sign. -/
  positive (value : Json.Value) : Except Error Word := do
    let word ← readUint value
    if word.msb then invalid (value.text ++ " does not fit in int256") else return word

/-- The octets of hex text. -/
def readOctets : Json.Value → Except Error Bytes
  | .string s => Hex.decode s
  | value => invalid (value.text ++ " is not a hex string")

/-- A word in the range of its type. -/
def inRange (type : String) (fits : Bool) (word : Word) : Except Error Word :=
  if fits then .ok word else .error (.abiRange type)

/-- The word of a value of an atomic type. -/
def atomWord (type : String) (value : Json.Value) : Except Error Word := do
  match ← Abi.Kind.parse type.toList with
  | .address =>
    match value with
    | .string s => (Address.parse s).map Address.toWord
    | _ => invalid (value.text ++ " is not an address")
  | .bool =>
    match value with
    | .bool b => return if b then 1 else 0
    | _ => invalid (value.text ++ " is not a bool")
  | .uint bits => do
    let word ← readUint value
    inRange type (Abi.fitsUint word bits) word
  | .int bits => do
    let word ← readInt value
    inRange type (Abi.fitsInt word bits) word
  | .fixedBytes size => do
    let octets ← readOctets value
    if octets.length ≠ size then throw (.abiBytesSize size octets.length)
    return Word.ofBytes octets.padRight
  | _ => throw (.abiType type)

end TypedData
end EthWire
