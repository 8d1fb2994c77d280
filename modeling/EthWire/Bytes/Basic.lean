/-
# Byte strings

Every wire format of this library reads and writes byte strings. They are lists of octets, so that a
codec is a recursion on its input and a law about it is an induction.

Numbers cross into bytes in one way only, big-endian: `toBigEndian` writes exactly as many octets as
it is told, `ofBigEndian` reads any number of them. Fixed fields are padded on the left (`padLeft`),
payloads on the right up to a whole number of 32 byte words (`padRight`).

Key definitions: `Bytes`, `ofBigEndian`, `toBigEndian`, `significant`, `blocks`.
Key theorems: `length_toBigEndian`, `ofBigEndian_toBigEndian`.
-/
namespace EthWire

/-- Powers of natural numbers are `Nat.pow` here, also next to theories that bring the powers of a
monoid. -/
@[default_instance 10000]
instance (priority := 10000) natPow : Pow Nat Nat :=
  instPowNat

/-- The zero of natural numbers is their numeral, also next to theories that bring the zero of a ring. -/
instance (priority := 10000) natZero : Zero Nat :=
  Zero.ofOfNat0

/-- A string of octets. -/
abbrev Bytes := List UInt8

namespace Bytes

/-! ### Big-endian numbers -/

/-- The number whose digits in base 256 are the octets, the most significant first. -/
def ofBigEndian (bytes : Bytes) : Nat :=
  bytes.foldl (fun n b => n * 256 + b.toNat) 0

/-- The last `width` digits of a number in base 256, the most significant first. -/
def toBigEndian : Nat → Nat → Bytes
  | 0, _ => []
  | width + 1, n => UInt8.ofNat (n / 256 ^ width) :: toBigEndian width n

@[simp] theorem length_toBigEndian (width n : Nat) : (toBigEndian width n).length = width := by
  induction width with
  | zero => rfl
  | succ width ih => simp [toBigEndian, ih]

theorem ofBigEndian_foldl (start : Nat) (bytes : Bytes) :
    bytes.foldl (fun n b => n * 256 + b.toNat) start
      = start * 256 ^ bytes.length + ofBigEndian bytes := by
  induction bytes generalizing start with
  | nil => simp [ofBigEndian]
  | cons b rest ih =>
    simp only [ofBigEndian, List.foldl_cons, List.length_cons, Nat.zero_mul, Nat.zero_add]
    rw [ih (start * 256 + b.toNat), ih b.toNat, Nat.add_mul, Nat.pow_succ, Nat.mul_assoc,
      Nat.mul_comm 256, Nat.add_assoc]

@[simp] theorem ofBigEndian_nil : ofBigEndian [] = 0 := rfl

theorem ofBigEndian_cons (b : UInt8) (rest : Bytes) :
    ofBigEndian (b :: rest) = b.toNat * 256 ^ rest.length + ofBigEndian rest := by
  simpa [ofBigEndian] using ofBigEndian_foldl b.toNat rest

theorem ofBigEndian_append (front back : Bytes) :
    ofBigEndian (front ++ back) = ofBigEndian front * 256 ^ back.length + ofBigEndian back := by
  simpa [ofBigEndian] using ofBigEndian_foldl (ofBigEndian front) back

/-- Octets of a number stay below the range of their width. -/
theorem ofBigEndian_lt (bytes : Bytes) : ofBigEndian bytes < 256 ^ bytes.length := by
  induction bytes with
  | nil => simp
  | cons b rest ih =>
    rw [ofBigEndian_cons, List.length_cons, Nat.pow_succ]
    have hb : b.toNat < 256 := b.toNat_lt
    calc b.toNat * 256 ^ rest.length + ofBigEndian rest
        < b.toNat * 256 ^ rest.length + 256 ^ rest.length := by omega
      _ = (b.toNat + 1) * 256 ^ rest.length := by rw [Nat.add_mul, Nat.one_mul]
      _ ≤ 256 * 256 ^ rest.length := Nat.mul_le_mul_right _ hb
      _ = 256 ^ rest.length * 256 := Nat.mul_comm _ _

/-- Reading what was written gives the number back, modulo the range of the width. -/
theorem ofBigEndian_toBigEndian (width n : Nat) :
    ofBigEndian (toBigEndian width n) = n % 256 ^ width := by
  induction width with
  | zero => simp [toBigEndian, Nat.mod_one]
  | succ width ih =>
    rw [toBigEndian, ofBigEndian_cons, ih, length_toBigEndian, Nat.pow_succ,
      Nat.mod_mul, UInt8.toNat_ofNat']
    rw [Nat.mul_comm, Nat.add_comm]

/-! ### Padding and cutting -/

/-- The octets with zeros in front of them, up to the width; a longer string is left alone. -/
def padLeft (width : Nat) (bytes : Bytes) : Bytes :=
  List.replicate (width - bytes.length) 0 ++ bytes

/-- The octets with zeros behind them, up to the next multiple of 32. -/
def padRight (bytes : Bytes) : Bytes :=
  bytes ++ List.replicate ((32 - bytes.length % 32) % 32) 0

theorem length_padRight_mod (bytes : Bytes) : (padRight bytes).length % 32 = 0 := by
  simp only [padRight, List.length_append, List.length_replicate]
  omega

/-- The octets from the first one that is not zero. -/
def significant (bytes : Bytes) : Bytes :=
  bytes.dropWhile (· == 0)

/-- Whether there are at least `n` elements; it looks no further than that. -/
def hasAtLeast {α : Type} : Nat → List α → Bool
  | 0, _ => true
  | _ + 1, [] => false
  | n + 1, _ :: rest => hasAtLeast n rest

theorem hasAtLeast_iff {α : Type} (n : Nat) (xs : List α) : hasAtLeast n xs = true ↔ n ≤ xs.length := by
  induction n generalizing xs with
  | zero => simp [hasAtLeast]
  | succ n ih => cases xs <;> simp [hasAtLeast, ih]

/-- The pieces of `size + 1` octets that make up the string in order; the last may be shorter. -/
def blocks (size : Nat) (bytes : Bytes) : List Bytes :=
  match bytes with
  | [] => []
  | b :: rest => (b :: rest.take size) :: blocks size (rest.drop size)
termination_by bytes.length
decreasing_by simp only [List.length_cons, List.length_drop]; omega

end Bytes
end EthWire
