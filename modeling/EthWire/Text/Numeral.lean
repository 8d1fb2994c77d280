/-
# Numerals in texts

Widths, array lengths and amounts are read from decimal or hexadecimal numerals. One optional plus
sign may stand in front; beyond it there must be at least one digit and nothing else: no minus sign,
no blank, no underscore. A numeral at or above the bound of its field is no numeral of that field.

Key definitions: `digitValue?`, `readDigits?`, `readBelow?`.
-/
import EthWire.Bytes.Basic

namespace EthWire
namespace Numeral

/-- The value of a character as a digit of the base. -/
def digitValue? (base : Nat) (c : Char) : Option Nat :=
  let n := c.toNat
  let value :=
    if 48 ≤ n ∧ n ≤ 57 then n - 48
    else if 97 ≤ n ∧ n ≤ 122 then n - 87
    else if 65 ≤ n ∧ n ≤ 90 then n - 55
    else base
  if value < base then some value else none

/-- The digits after those that make up `value`, appended to it. -/
def readMore? (base value : Nat) : List Char → Option Nat
  | [] => some value
  | c :: rest =>
    match digitValue? base c with
    | some d => readMore? base (value * base + d) rest
    | none => none

/-- The number that a non-empty run of digits denotes. -/
def readDigits? (base : Nat) : List Char → Option Nat
  | [] => none
  | c :: rest => readMore? base 0 (c :: rest)

/-- The number of a numeral with an optional plus sign. -/
def read? (base : Nat) : List Char → Option Nat
  | '+' :: rest => readDigits? base rest
  | text => readDigits? base text

/-- The number of a numeral, if it is below the bound. -/
def readBelow? (base bound : Nat) (text : List Char) : Option Nat :=
  (read? base text).filter (· < bound)

/-- A count that fits 64 bits, as a decimal numeral. -/
def readCount? (text : List Char) : Option Nat :=
  readBelow? 10 (2 ^ 64) text

end Numeral
end EthWire
