/-
# The tokens of JSON text

JSON text is cut into tokens by a machine that reads one character at a time. Its mode says what it is
in the middle of: nothing, a word, a number, a string, an escape in a string.

A string token holds code points; an escape can name half of a surrogate pair, and whether the halves
match is a question for those who want a text of it. A number token holds its digits, so that whoever
skips it need not care how large it is.

Key definitions: `Json.Numeral`, `Json.Token`, `Json.tokens?`.
-/
import EthWire.Text.Numeral

namespace EthWire
namespace Json

/-- The parts of a number: its sign, the digits before and behind the point, and the exponent with
its own sign. Without a point there are no digits behind it. -/
structure Numeral where
  negative : Bool
  whole : List Char
  fraction : List Char
  exponent : Option (Bool × List Char)
  deriving DecidableEq, Repr

namespace Numeral

/-- The parts from the exponent on: a letter, an optional sign, at least one digit. -/
def exponentPart? : List Char → Option (Option (Bool × List Char))
  | [] => some none
  | c :: rest =>
    if c = 'e' ∨ c = 'E' then
      let (negative, digits) := match rest with
        | '-' :: ds => (true, ds)
        | '+' :: ds => (false, ds)
        | ds => (false, ds)
      if digits.isEmpty ∨ !digits.all Char.isDigit then none else some (some (negative, digits))
    else none

/-- The parts from the point on. -/
def fractionPart? : List Char → Option (List Char × Option (Bool × List Char))
  | '.' :: rest =>
    let digits := rest.takeWhile Char.isDigit
    if digits.isEmpty then none
    else (exponentPart? (rest.drop digits.length)).map fun e => (digits, e)
  | rest => (exponentPart? rest).map fun e => ([], e)

/-- The parts of the characters of a number: no digit may follow a leading zero. -/
def ofChars? (text : List Char) : Option Numeral := do
  let (negative, digits) := match text with
    | '-' :: rest => (true, rest)
    | rest => (false, rest)
  let whole := digits.takeWhile Char.isDigit
  if whole.isEmpty ∨ (whole.head? = some '0' ∧ whole.length > 1) then none
  else
    let (fraction, exponent) ← fractionPart? (digits.drop whole.length)
    some ⟨negative, whole, fraction, exponent⟩

end Numeral

/-- The tokens of JSON text. -/
inductive Token where
  | openList
  | closeList
  | openObject
  | closeObject
  | comma
  | colon
  | null
  | bool (value : Bool)
  | number (value : Numeral)
  | string (codes : List Nat)
  deriving DecidableEq, Repr

/-- What the machine is in the middle of; characters and codes come latest first. -/
inductive Mode where
  | between
  | word (chars : List Char)
  | number (chars : List Char)
  | string (codes : List Nat)
  | escape (codes : List Nat)
  | hex (codes : List Nat) (value count : Nat)
  deriving DecidableEq, Repr

/-- The token of a word. -/
def wordToken? (word : List Char) : Option Token :=
  if word = "null".toList then some .null
  else if word = "true".toList then some (.bool true)
  else if word = "false".toList then some (.bool false)
  else none

/-- The token that ends with the text or where a character of another kind follows. -/
def flush? : Mode → Option (List Token)
  | .between => some []
  | .word chars => (wordToken? chars.reverse).map ([·])
  | .number chars => (Numeral.ofChars? chars.reverse).map fun n => [.number n]
  | _ => none

/-- A character between tokens. -/
def begin? (c : Char) : Option (List Token × Mode) :=
  if c = ' ' ∨ c = '\t' ∨ c = '\n' ∨ c = '\r' then some ([], .between)
  else if c = '[' then some ([.openList], .between)
  else if c = ']' then some ([.closeList], .between)
  else if c = '\x7b' then some ([.openObject], .between)
  else if c = '\x7d' then some ([.closeObject], .between)
  else if c = ',' then some ([.comma], .between)
  else if c = ':' then some ([.colon], .between)
  else if c = '"' then some ([], .string [])
  else if c.isDigit ∨ c = '-' then some ([], .number [c])
  else if c.isLower then some ([], .word [c])
  else none

/-- Ends the token at hand and looks at the character anew. -/
def beginAfter? (mode : Mode) (c : Char) : Option (List Token × Mode) := do
  let ended ← flush? mode
  let (begun, next) ← begin? c
  some (ended ++ begun, next)

/-- The code of a letter behind a backslash. -/
def escapeCode? (c : Char) : Option Nat :=
  if c = '"' ∨ c = '\\' ∨ c = '/' then some c.toNat
  else if c = 'b' then some 8
  else if c = 'f' then some 12
  else if c = 'n' then some 10
  else if c = 'r' then some 13
  else if c = 't' then some 9
  else none

/-- One character: the tokens that end with it, and the mode after it. -/
def step? (mode : Mode) (c : Char) : Option (List Token × Mode) :=
  match mode with
  | .between => begin? c
  | .word chars => if c.isLower then some ([], .word (c :: chars)) else beginAfter? mode c
  | .number chars =>
    if c.isDigit ∨ c = '.' ∨ c = 'e' ∨ c = 'E' ∨ c = '+' ∨ c = '-' then
      some ([], .number (c :: chars))
    else beginAfter? mode c
  | .string codes =>
    if c = '"' then some ([.string codes.reverse], .between)
    else if c = '\\' then some ([], .escape codes)
    else if c.toNat < 0x20 then none
    else some ([], .string (c.toNat :: codes))
  | .escape codes =>
    if c = 'u' then some ([], .hex codes 0 0)
    else (escapeCode? c).map fun code => ([], .string (code :: codes))
  | .hex codes value count =>
    (EthWire.Numeral.digitValue? 16 c).map fun d =>
      let value := value * 16 + d
      if count = 3 then ([], .string (value :: codes)) else ([], .hex codes value (count + 1))

/-- The tokens from a mode on. -/
def tokensFrom? (mode : Mode) : List Char → Option (List Token)
  | [] => flush? mode
  | c :: rest =>
    match step? mode c with
    | none => none
    | some (ended, next) => (tokensFrom? next rest).map (ended ++ ·)

/-- The tokens of a text. -/
def tokens? (text : List Char) : Option (List Token) :=
  tokensFrom? .between text

end Json
end EthWire
