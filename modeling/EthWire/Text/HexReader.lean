/-
# Reading hex text

Hex text is read two characters at a time, after one optional `0x`. An odd last character is an octet
of its own, and since every pair is read as a numeral, a plus sign may stand in front of a single
digit: `+f` is 15. The pairs are cut from the UTF-8 octets of the text, so a pair can fall inside a
character; that is reported as bad UTF-8, anything else that is no numeral as a bad digit. The first
bad pair decides.

Key definitions: `Hex.readPair`, `Hex.decode`, `Word.ofBytesExactly`, `Word.ofHex`.
-/
import EthWire.Error
import EthWire.Text.Basic
import EthWire.Text.Numeral

namespace EthWire
namespace Hex

/-- Whether one or two octets are whole UTF-8 characters. -/
def isUtf8Pair : Bytes → Bool
  | [a] => a < 0x80
  | [a, b] => (a < 0x80 && b < 0x80) || (0xc2 ≤ a && a < 0xe0 && 0x80 ≤ b && b < 0xc0)
  | _ => false

/-- The octet that one or two characters of hex text denote. -/
def readPair (pair : Bytes) : Except Error UInt8 :=
  if isUtf8Pair pair then
    match Numeral.read? 16 (pair.map fun b => Char.ofNat b.toNat) with
    | some n => .ok (UInt8.ofNat n)
    | none => .error .invalidHex
  else .error .invalidUtf8

/-- The octets of a text without `0x` in front. -/
def decodeOctets (octets : Bytes) : Except Error Bytes :=
  (Bytes.blocks 1 octets).mapM readPair

/-- The octets that hex text denotes; one `0x` in front is skipped. -/
def decode (text : String) : Except Error Bytes :=
  decodeOctets (Text.octets (String.ofList (Text.after0x text.toList)))

end Hex

namespace Bytes

/-- The octets themselves, if there are exactly so many. -/
def exactly (size : Nat) (bytes : Bytes) : Except Error Bytes :=
  if bytes.length = size then .ok bytes else .error (.abiBytesSize size bytes.length)

end Bytes

namespace Word

/-- The word of exactly 32 octets. -/
def ofBytesExactly (bytes : Bytes) : Except Error Word :=
  (bytes.exactly 32).map ofBytes

/-- The word of hex text for exactly 32 octets. -/
def ofHex (text : String) : Except Error Word :=
  Hex.decode text >>= ofBytesExactly

/-- A decimal numeral, or a hexadecimal one after `0x`, below 2^256. -/
def ofNumeral? (text : String) : Option Word :=
  match text.toList with
  | '0' :: 'x' :: rest => Numeral.read? 16 rest >>= ofNat?
  | digits => Numeral.read? 10 digits >>= ofNat?

end Word
end EthWire
