/-
# Hex text of octets

Writing is plain: two lower case digits an octet. `upper` turns the letters of such a text into upper
case ones. Reading is in `EthWire.Text.HexReader`, because it can fail.

Key definitions: `Hex.digit`, `Hex.encode`, `Hex.text`, `Hex.data`.
-/
import EthWire.Bytes.Basic
import EthWire.Word

namespace EthWire
namespace Hex

/-- The lower case digit of a number below 16. -/
def digit (n : Nat) : Char :=
  if n < 10 then Char.ofNat (48 + n) else Char.ofNat (87 + n)

/-- The two digits of an octet. -/
def octet (b : UInt8) : List Char :=
  [digit (b.toNat / 16), digit (b.toNat % 16)]

/-- Two digits for every octet, in order. -/
def encode (bytes : Bytes) : List Char :=
  bytes.flatMap octet

theorem length_encode (bytes : Bytes) : (encode bytes).length = 2 * bytes.length := by
  induction bytes with
  | nil => rfl
  | cons b rest ih =>
    simp only [encode, octet, List.flatMap_cons, List.length_append, List.length_cons,
      List.length_nil] at ih ⊢
    omega

/-- The hex text of an octet string. -/
def text (bytes : Bytes) : String :=
  String.ofList (encode bytes)

/-- The hex text with `0x` in front. -/
def data (bytes : Bytes) : String :=
  "0x" ++ text bytes

/-- The hex text of a word, all 64 digits of it, with `0x` in front. -/
def word (word : Word) : String :=
  data word.toBytes

/-- The text with its ASCII letters in upper case. -/
def upper (text : String) : String :=
  text.map Char.toUpper

end Hex
end EthWire
