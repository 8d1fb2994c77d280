/-
# Characters and their octets

Parsers of this library work on lists of characters; hashes and hex decoding work on the octets of
their UTF-8 form. This file holds the passage between the two, the blank characters that type and
definition texts may be padded with, and splitting at separators.

Blank is the Unicode property White_Space, so a no-break space or an ideographic space pads a type
text just as a space does.

Key definitions: `octets`, `ofOctets?`, `isBlank`, `trim`, `words`, `splitWhere`.
-/
import EthWire.Bytes.Basic

namespace EthWire
namespace Text

/-! ### UTF-8 -/

/-- The UTF-8 octets of a text. -/
def octets (text : String) : Bytes :=
  text.toList.flatMap String.utf8EncodeChar

/-- The text with these UTF-8 octets, if they are well formed. -/
def ofOctets? (bytes : Bytes) : Option String :=
  String.fromUTF8? bytes.toByteArray

/-- How many UTF-8 octets a text takes. -/
def octetCount (text : String) : Nat :=
  text.utf8ByteSize

/-! ### White space -/

/-- The characters with the Unicode property White_Space. -/
def isBlank (c : Char) : Bool :=
  let n := c.toNat
  (9 ≤ n && n ≤ 13) || n == 0x20 || n == 0x85 || n == 0xa0 || n == 0x1680 ||
    (0x2000 ≤ n && n ≤ 0x200a) || n == 0x2028 || n == 0x2029 || n == 0x202f || n == 0x205f ||
    n == 0x3000

/-- The text without the blanks it starts with. -/
def trimStart (text : List Char) : List Char :=
  text.dropWhile isBlank

/-- The text without the blanks it ends with. -/
def trimEnd (text : List Char) : List Char :=
  (text.reverse.dropWhile isBlank).reverse

/-- The text without the blanks at both ends. -/
def trim (text : List Char) : List Char :=
  trimEnd (trimStart text)

theorem length_trimStart_le (text : List Char) : (trimStart text).length ≤ text.length :=
  (List.dropWhile_sublist _).length_le

theorem length_trimEnd_le (text : List Char) : (trimEnd text).length ≤ text.length := by
  simpa [trimEnd] using (List.dropWhile_sublist (l := text.reverse) isBlank).length_le

theorem length_trim_le (text : List Char) : (trim text).length ≤ text.length :=
  Nat.le_trans (length_trimEnd_le _) (length_trimStart_le _)

/-! ### Splitting -/

/-- The pieces between the characters that satisfy the test; there is one piece more than there are
such characters. -/
def splitWhere (separator : Char → Bool) : List Char → List (List Char)
  | [] => [[]]
  | c :: rest =>
    match separator c, splitWhere separator rest with
    | true, pieces => [] :: pieces
    | false, [] => [[c]]
    | false, piece :: pieces => (c :: piece) :: pieces

theorem splitWhere_ne_nil (separator : Char → Bool) (text : List Char) :
    splitWhere separator text ≠ [] := by
  cases text with
  | nil => simp [splitWhere]
  | cons c rest => simp only [splitWhere]; split <;> simp

/-- The runs of characters between blanks. -/
def words (text : List Char) : List (List Char) :=
  (splitWhere isBlank text).filter (!·.isEmpty)

/-- What follows the front part, if the text starts with it. -/
def afterFront? (front : List Char) (text : List Char) : Option (List Char) :=
  if front.isPrefixOf text then some (text.drop front.length) else none

/-- The text after `0x`, if it starts so, and otherwise the whole text. -/
def after0x : List Char → List Char
  | '0' :: 'x' :: rest => rest
  | text => text

/-- The part before the first occurrence of the character and the part after it. -/
def cutAt? (mark : Char) : List Char → Option (List Char × List Char)
  | [] => none
  | c :: rest => if c = mark then some ([], rest) else (cutAt? mark rest).map fun p => (c :: p.1, p.2)

end Text
end EthWire
