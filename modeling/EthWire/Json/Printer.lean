/-
# Writing JSON

Values are written without blanks. Strings escape the quotation mark, the backslash and the control
characters, for five of which there is a short escape; all other characters stand for themselves.

Key definitions: `Json.quote`, `Json.Value.text`.
-/
import EthWire.Json.Value
import EthWire.Text.Hex

namespace EthWire
namespace Json

/-- A character inside a string literal. -/
def escapeChar (c : Char) : List Char :=
  if c = '"' then ['\\', '"']
  else if c = '\\' then ['\\', '\\']
  else if c.toNat = 8 then ['\\', 'b']
  else if c.toNat = 12 then ['\\', 'f']
  else if c = '\n' then ['\\', 'n']
  else if c = '\r' then ['\\', 'r']
  else if c = '\t' then ['\\', 't']
  else if c.toNat < 0x20 then
    ['\\', 'u', '0', '0', Hex.digit (c.toNat / 16), Hex.digit (c.toNat % 16)]
  else [c]

/-- The string literal of a text. -/
def quote (text : String) : String :=
  "\"" ++ String.ofList (text.toList.flatMap escapeChar) ++ "\""

/-- Texts with commas between them. -/
def commaList (texts : List String) : String :=
  ",".intercalate texts

/-- A list of written values. -/
def listText (items : List String) : String :=
  "[" ++ commaList items ++ "]"

/-- An object of written values. -/
def objectText (members : List (String × String)) : String :=
  "\x7b" ++ commaList (members.map fun m => quote m.1 ++ ":" ++ m.2) ++ "\x7d"

mutual

/-- The text of a value. -/
def Value.text : Value → String
  | .null => "null"
  | .bool true => "true"
  | .bool false => "false"
  | .number n => n.text
  | .string s => quote s
  | .list items => listText (Value.texts items)
  | .object members => objectText (Value.memberTexts members)

/-- The texts of values. -/
def Value.texts : List Value → List String
  | [] => []
  | v :: rest => v.text :: Value.texts rest

/-- The members of an object with the texts of their values. -/
def Value.memberTexts : List (String × Value) → List (String × String)
  | [] => []
  | (key, v) :: rest => (key, v.text) :: Value.memberTexts rest

end

end Json
end EthWire
