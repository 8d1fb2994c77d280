/-
# Points of secp256k1

The curve `y² = x³ + 7` over the prime field of `2²⁵⁶ − 2³² − 977` elements. Points are held in
projective coordinates, where the sum of any two points, equal ones and the neutral one included, is
given by one formula without a case split; that formula also doubles.

Key definitions: `Curve.fieldPrime`, `Curve.power`, `Curve.inverse`, `Curve.squareRoot?`,
`Curve.Point`, `Curve.Point.add`, `Curve.Point.multiply`, `Curve.Point.affine?`,
`Curve.Point.lift?`.
-/
import EthWire.Curve.Scheme

namespace EthWire
namespace Curve

/-- The characteristic of the coordinate field. -/
def fieldPrime : Nat := 0xfffffffffffffffffffffffffffffffffffffffffffffffffffffffefffffc2f

/-- The product modulo `m` of the factor and the given power of the base. -/
def powerTimes (m : Nat) (factor base exponent : Nat) : Nat :=
  if exponent = 0 then factor
  else
    powerTimes m (if exponent % 2 = 1 then factor * base % m else factor) (base * base % m)
      (exponent / 2)
termination_by exponent
decreasing_by omega

/-- A power modulo `m`. -/
def power (m base exponent : Nat) : Nat :=
  powerTimes m (1 % m) (base % m) exponent

/-- The inverse modulo a prime, by the power that is one less than what fixes every element. -/
def inverse (prime x : Nat) : Nat :=
  power prime x (prime - 2)

/-- A square root in the coordinate field, whose characteristic is 3 modulo 4. -/
def squareRoot? (x : Nat) : Option Nat :=
  let root := power fieldPrime x ((fieldPrime + 1) / 4)
  if root * root % fieldPrime = x % fieldPrime then some root else none

/-- The difference modulo the characteristic. -/
def minus (x y : Nat) : Nat :=
  (x + (fieldPrime - y % fieldPrime)) % fieldPrime

/-- A point in projective coordinates; the neutral point has `z = 0`. -/
structure Point where
  x : Nat
  y : Nat
  z : Nat
  deriving DecidableEq, Repr

namespace Point

/-- The neutral point. -/
def neutral : Point := ⟨0, 1, 0⟩

/-- The generator of the group. -/
def generator : Point where
  x := 0x79be667ef9dcbbac55a06295ce870b07029bfcdb2dce28d959f2815b16f81798
  y := 0x483ada7726a3c4655da4fbfc0e1108a8fd17b448a68554199c47d08ffb10d4b8
  z := 1

/-- The sum of any two points. -/
def add (p q : Point) : Point :=
  let m := fieldPrime
  let xx := p.x * q.x % m
  let yy := p.y * q.y % m
  let zz := 21 * (p.z * q.z) % m
  let xy := (p.x * q.y + p.y * q.x) % m
  let yz := (p.y * q.z + p.z * q.y) % m
  let xz := 21 * (p.x * q.z + p.z * q.x) % m
  let low := minus yy zz
  let high := yy + zz
  ⟨minus (xy * low) (yz * xz), (3 * xx * xz + low * high) % m, (high * yz + 3 * xx * xy) % m⟩

/-- The point `start` plus the `n`-fold of `p`. -/
def addMultiple (start p : Point) (n : Nat) : Point :=
  if n = 0 then start
  else addMultiple (if n % 2 = 1 then add start p else start) (add p p) (n / 2)
termination_by n
decreasing_by omega

/-- The `n`-fold of a point. -/
def multiply (p : Point) (n : Nat) : Point :=
  addMultiple neutral p n

/-- The affine coordinates of a point other than the neutral one. -/
def affine? (p : Point) : Option (Nat × Nat) :=
  if p.z = 0 then none
  else
    let inv := inverse fieldPrime p.z
    some (p.x * inv % fieldPrime, p.y * inv % fieldPrime)

/-- The point with this abscissa whose ordinate has the parity asked for. -/
def lift? (x : Nat) (odd : Bool) : Option Point :=
  (squareRoot? (x * x * x + 7)).map fun root =>
    ⟨x, if (root % 2 == 1) = odd then root else minus 0 root, 1⟩

/-- The 64 octets of the affine coordinates. -/
def coordinates? (p : Point) : Option Bytes :=
  p.affine?.map fun (x, y) => Bytes.toBigEndian 32 x ++ Bytes.toBigEndian 32 y

end Point
end Curve
end EthWire
