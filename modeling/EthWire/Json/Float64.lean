/-
# Binary floating point numbers of 64 bits

A JSON number that is no integer of 64 bits is held as a floating point number. Its magnitude is
`mantissa * 2 ^ exponent` with a mantissa below 2^53 and an exponent of at least -1074, and all
arithmetic on it is exact arithmetic on natural numbers followed by one rounding to the nearest
magnitude, ties to the even mantissa.

The text of a number has the fewest digits that read back as it, and of those the nearest; positional
when the first digit stands for a power of ten from -5 to 15, and otherwise with an exponent that has
a sign and at least two digits.

Key definitions: `Float64`, `Float64.roundRatio?`, `Float64.scale?`, `Float64.shortest`,
`Float64.text`.
-/
import EthWire.Bytes.Basic

namespace EthWire

/-- A binary floating point number: the sign, and `mantissa * 2 ^ exponent`. -/
structure Float64 where
  negative : Bool
  mantissa : Nat
  exponent : Int
  deriving DecidableEq, Repr

namespace Float64

/-- The least exponent of two. -/
def minExponent : Int := -1074

/-- The exponent of two at which magnitudes overflow. -/
def overflowExponent : Nat := 1024

/-- The magnitude of zero. -/
def zero : Float64 := ⟨false, 0, minExponent⟩

/-- The quotient rounded to the nearest integer, ties to the even one. -/
def divideEven (num den : Nat) : Nat :=
  let q := num / den
  let twice := 2 * (num % den)
  if twice < den then q
  else if den < twice then q + 1
  else q + q % 2

/-- The position of the leading bit of a positive ratio: the greatest `k` with `2 ^ k ≤ num / den`. -/
def leadingBit (num den : Nat) : Int :=
  let k : Int := (num.log2 : Int) - den.log2
  let fits : Bool := if 0 ≤ k then den * 2 ^ k.toNat ≤ num else den ≤ num * 2 ^ (-k).toNat
  if fits then k else k - 1

/-- The magnitude nearest to a ratio, unless it is too large. -/
def roundRatio? (num den : Nat) : Option Float64 :=
  if num = 0 then some zero
  else
    let exponent := max (leadingBit num den - 52) minExponent
    let mantissa :=
      if 0 ≤ exponent then divideEven num (den * 2 ^ exponent.toNat)
      else divideEven (num * 2 ^ (-exponent).toNat) den
    let (mantissa, exponent) :=
      if mantissa = 2 ^ 53 then (2 ^ 52, exponent + 1) else (mantissa, exponent)
    if mantissa ≥ 2 ^ 52 ∧ exponent + 52 ≥ overflowExponent then none
    else if mantissa = 0 then some zero
    else some ⟨false, mantissa, exponent⟩

/-- A magnitude as a ratio. -/
def ratio (x : Float64) : Nat × Nat :=
  if 0 ≤ x.exponent then (x.mantissa * 2 ^ x.exponent.toNat, 1)
  else (x.mantissa, 2 ^ (-x.exponent).toNat)

/-- The magnitude nearest to a power of ten. -/
def powerOfTen? (n : Nat) : Option Float64 :=
  roundRatio? (10 ^ n) 1

/-- The rounded product with a rounded power of ten. -/
def timesPower? (x : Float64) (n : Nat) : Option Float64 := do
  let p := (← powerOfTen? n).ratio
  roundRatio? (x.ratio.1 * p.1) (x.ratio.2 * p.2)

/-- The rounded quotient by a rounded power of ten. -/
def overPower? (x : Float64) (n : Nat) : Option Float64 := do
  let p := (← powerOfTen? n).ratio
  roundRatio? (x.ratio.1 * p.2) (x.ratio.2 * p.1)

/-- The largest power of ten that is a magnitude. -/
def maxPower : Nat := 308

/-- A magnitude divided so many times by the largest power of ten, until it is zero. -/
def stepDown? (x : Float64) : Nat → Option Float64
  | 0 => some x
  | steps + 1 => if x.mantissa = 0 then some x else do stepDown? (← x.overPower? maxPower) steps

/-- A magnitude divided by a power of ten; beyond the largest power that is a magnitude, step by
step. -/
def scaleDown? (x : Float64) (n : Nat) : Option Float64 := do
  let steps := (n - 1) / maxPower
  (← x.stepDown? steps).overPower? (n - steps * maxPower)

/-- A magnitude times a power of ten, unless the result is too large. Powers that are no magnitude
themselves only scale zero. -/
def scale? (x : Float64) (power : Int) : Option Float64 :=
  if power < 0 then x.scaleDown? (-power).toNat
  else if power ≤ maxPower then x.timesPower? power.toNat
  else if x.mantissa = 0 then some x
  else none

/-! ### Text -/

/-- Whether `digits * 10 ^ power` rounds to the magnitude. -/
def readsAs (x : Float64) (digits : Nat) (power : Int) : Bool :=
  let back :=
    if 0 ≤ power then roundRatio? (digits * 10 ^ power.toNat) 1
    else roundRatio? digits (10 ^ (-power).toNat)
  back = some { x with negative := false }

/-- The exponent of the leading decimal digit of a positive magnitude. -/
def leadingDigit (x : Float64) : Int :=
  let (num, den) := x.ratio
  if den ≤ num then ((toString (num / den)).length : Int) - 1
  else
    let places := (toString (den / num)).length
    if den ≤ num * 10 ^ (places - 1) then 1 - (places : Int) else -(places : Int)

/-- The neighbour of the magnitude on the grid of the power of ten that reads back, if one does; of
two the nearer, and of two as near the even one. -/
def onGrid? (x : Float64) (power : Int) : Option Nat :=
  let (num, den) := x.ratio
  let (num, den) :=
    if 0 ≤ power then (num, den * 10 ^ power.toNat) else (num * 10 ^ (-power).toNat, den)
  let near := divideEven num den
  let low := num / den
  if x.readsAs near power then some near
  else if x.readsAs low power then some low
  else if x.readsAs (low + 1) power then some (low + 1)
  else none

/-- The first grid, from `power` down, with a neighbour of the magnitude that reads back. -/
def shortestFrom (x : Float64) (power : Int) : Nat → Nat × Int
  | 0 => (x.onGrid? power |>.getD 0, power)
  | grids + 1 =>
    match x.onGrid? power with
    | some digits => (digits, power)
    | none => shortestFrom x (power - 1) grids

/-- The fewest decimal digits that read back as a positive magnitude, and the power of ten of the
last one. -/
def shortest (x : Float64) : Nat × Int :=
  shortestFrom x x.leadingDigit 17

/-- A digit string without the zeros it ends with, at least one digit of it. -/
def withoutEndZeros (digits : List Char) : List Char :=
  match (digits.reverse.dropWhile (· == '0')).reverse with
  | [] => ['0']
  | cs => cs

/-- The text of a positive magnitude. -/
def magnitudeText (x : Float64) : List Char :=
  let (value, power) := x.shortest
  let all := (toString value).toList
  let lead : Int := power + all.length - 1
  let digits := withoutEndZeros all
  if -5 ≤ lead ∧ lead ≤ 15 then
    if lead < 0 then
      '0' :: '.' :: (List.replicate ((-lead).toNat - 1) '0' ++ digits)
    else
      let whole := lead.toNat + 1
      let front := digits.take whole ++ List.replicate (whole - digits.length) '0'
      let back := digits.drop whole
      front ++ '.' :: (if back.isEmpty then ['0'] else back)
  else
    let front := match digits with
      | d :: e :: rest => d :: '.' :: e :: rest
      | ds => ds
    let size := (toString lead.natAbs).toList
    front ++ 'e' :: (if lead < 0 then '-' else '+') ::
      (if size.length < 2 then '0' :: size else size)

/-- The text of a number. -/
def text (x : Float64) : String :=
  let magnitude := if x.mantissa = 0 then "0.0".toList else x.magnitudeText
  String.ofList (if x.negative then '-' :: magnitude else magnitude)

end Float64
end EthWire
