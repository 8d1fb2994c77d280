/-
# JSON values

A value is what a tree means. Its numbers are natural numbers below 2^64, negative integers down to
-2^63, and floating point numbers for the rest. Its strings are texts. Its objects are dictionaries:
the keys are in ascending order and distinct, and of a repeated key the last value counts.

Key definitions: `Dictionary`, `Json.Number`, `Json.Numeral.number?`, `Json.textOfCodes?`,
`Json.Value`, `Json.Tree.value?`.
-/
import EthWire.Json.Tree
import EthWire.Json.Float64

namespace EthWire

/-- Pairs in ascending order of their distinct keys. -/
abbrev Dictionary (α : Type) := List (String × α)

namespace Dictionary

variable {α : Type}

/-- The dictionary with a value under the key, in place of the one that was there. -/
def insert (key : String) (value : α) : Dictionary α → Dictionary α
  | [] => [(key, value)]
  | (k, v) :: rest =>
    if key < k then (key, value) :: (k, v) :: rest
    else if key = k then (key, value) :: rest
    else (k, v) :: insert key value rest

/-- The dictionary of pairs in any order; of a repeated key the last value counts. -/
def ofList (pairs : List (String × α)) : Dictionary α :=
  pairs.foldl (fun dict pair => insert pair.1 pair.2 dict) []

/-- The value under a key. -/
def get? (dict : Dictionary α) (key : String) : Option α :=
  dict.lookup key

/-- Whether there is a value under the key. -/
def contains (dict : Dictionary α) (key : String) : Bool :=
  (dict.get? key).isSome

theorem get?_cons (key : String) (value : α) (rest : Dictionary α) (other : String) :
    get? ((key, value) :: rest) other = if other = key then some value else rest.get? other := by
  rw [get?, List.lookup_cons]
  cases h : other == key
  · rw [if_neg (by simpa using h), get?]
  · rw [if_pos (by simpa using h)]

/-- A value that was inserted is found under its key, and the other keys are not touched. -/
theorem get?_insert (key : String) (value : α) (other : String) : ∀ dict : Dictionary α,
    (insert key value dict).get? other = if other = key then some value else dict.get? other
  | [] => get?_cons key value [] other
  | (k, v) :: rest => by
    rw [insert, get?_cons k]
    by_cases hlt : key < k
    · rw [if_pos hlt, get?_cons, get?_cons]
    · rw [if_neg hlt]
      by_cases hsame : key = k
      · rw [if_pos hsame, get?_cons, hsame]
        split <;> rfl
      · rw [if_neg hsame, get?_cons, get?_insert key value other rest]
        by_cases hkey : other = key
        · rw [if_pos hkey, if_pos hkey, if_neg (hkey ▸ hsame)]
        · rw [if_neg hkey, if_neg hkey]

theorem contains_insert (key : String) (value : α) (other : String) (dict : Dictionary α) :
    (insert key value dict).contains other = (other == key || dict.contains other) := by
  rw [contains, get?_insert]
  by_cases h : other = key <;> simp [h, contains]

end Dictionary

namespace Json

/-! ### Numbers -/

/-- The numbers of JSON values. -/
inductive Number where
  /-- A natural number below 2^64. -/
  | natural (n : Nat)
  /-- The integer `-n`, for `n` from 1 to 2^63. -/
  | negative (n : Nat)
  | float (x : Float64)
  deriving DecidableEq, Repr

namespace Numeral

/-- The bound of the digits that are read exactly. -/
def significandBound : Nat := 2 ^ 64

/-- Appends digits to a number as long as it stays below the bound; the rest of the digits. -/
def appendDigits (n : Nat) : List Char → Nat × List Char
  | [] => (n, [])
  | c :: rest =>
    let next := n * 10 + (c.toNat - 48)
    if next < significandBound then appendDigits next rest else (n, c :: rest)

/-- The magnitude of a numeral as a floating point number: as many leading digits as stay below 2^64,
scaled by the power of ten that the others and the exponent give. -/
def magnitude? (n : Numeral) : Option Float64 :=
  let (whole, dropped) := appendDigits 0 n.whole
  let (significand, rest) := appendDigits whole n.fraction
  let power : Int := (dropped.length : Int) - (n.fraction.length - rest.length : Nat)
  let power := match n.exponent with
    | none => power
    | some (isNegative, digits) =>
      let e : Int := (digits.foldl (fun e c => e * 10 + (c.toNat - 48)) 0 : Nat)
      if isNegative then power - e else power + e
  if significand = 0 then some Float64.zero
  else Float64.roundRatio? significand 1 >>= (·.scale? power)

/-- The number of a numeral, unless it is too large. A minus sign in front of zero, or in front of a
magnitude above 2^63, makes a floating point number. -/
def number? (n : Numeral) : Option Number :=
  let float := n.magnitude?.map fun x => Number.float { x with negative := n.negative }
  let (value, dropped) := appendDigits 0 n.whole
  if n.fraction.isEmpty ∧ n.exponent = none ∧ dropped.isEmpty then
    if !n.negative then some (.natural value)
    else if 0 < value ∧ value ≤ 2 ^ 63 then some (.negative value)
    else float
  else float

end Numeral

namespace Number

/-- The text of a number. -/
def text : Number → String
  | .natural n => toString n
  | .negative n => "-" ++ toString n
  | .float x => x.text

end Number

/-! ### Texts -/

/-- Whether a code is the first half of a surrogate pair. -/
def isHighSurrogate (code : Nat) : Bool := 0xd800 ≤ code && code < 0xdc00

/-- Whether a code is the second half of a surrogate pair. -/
def isLowSurrogate (code : Nat) : Bool := 0xdc00 ≤ code && code < 0xe000

/-- The characters of code points; a first half must be followed by a second one, with which it makes
one character, and a second half must follow a first one. -/
def charsOfCodes? : List Nat → Option (List Char)
  | [] => some []
  | code :: rest =>
    if isHighSurrogate code then
      match rest with
      | low :: rest =>
        if isLowSurrogate low then
          (charsOfCodes? rest).map
            (Char.ofNat (0x10000 + (code - 0xd800) * 0x400 + (low - 0xdc00)) :: ·)
        else none
      | [] => none
    else if isLowSurrogate code then none
    else (charsOfCodes? rest).map (Char.ofNat code :: ·)

/-- The text of code points. -/
def textOfCodes? (codes : List Nat) : Option String :=
  (charsOfCodes? codes).map String.ofList

/-! ### Values -/

/-- The values of JSON text. -/
inductive Value where
  | null
  | bool (value : Bool)
  | number (value : Number)
  | string (value : String)
  | list (items : List Value)
  | object (members : List (String × Value))
  deriving Repr

namespace Value

/-- Whether a value is null. -/
def isNull : Value → Bool
  | .null => true
  | _ => false

end Value

/-- How many lists and objects may be nested in each other. -/
def maxDepth : Nat := 127

/-- The value of a tree whose lists and objects nest at most `levels` deep. -/
def Tree.value? : (levels : Nat) → Tree → Option Value
  | _, .null => some .null
  | _, .bool b => some (.bool b)
  | _, .number n => n.number?.map .number
  | _, .string codes => (textOfCodes? codes).map .string
  | 0, .list _ => none
  | 0, .object _ => none
  | levels + 1, .list items => (items.mapM (value? levels)).map .list
  | levels + 1, .object members =>
    (members.mapM fun (key, tree) => do
      some (← textOfCodes? key, ← value? levels tree)).map fun pairs =>
        .object (Dictionary.ofList pairs)

end Json
end EthWire
