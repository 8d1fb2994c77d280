/-
# 256-bit words

Amounts, hashes, storage keys and ABI slots are all words of 256 bits. A word is one number below
2^256 and at the same time one string of 32 octets, the number's big-endian digits; `Word.toBytes`
and `Word.ofBytes` pass between the two views.

Key definitions: `Word`, `Word.toBytes`, `Word.ofBytes`, `Word.ofNat?`.
Key theorems: `Word.ofBytes_toBytes`.
-/
import EthWire.Bytes.Basic

namespace EthWire

/-- A word of 256 bits. -/
abbrev Word := BitVec 256

namespace Word

/-- The 32 octets of a word, the most significant first. -/
def toBytes (word : Word) : Bytes :=
  Bytes.toBigEndian 32 word.toNat

/-- The word of the last 32 octets of a string, read as a number. -/
def ofBytes (bytes : Bytes) : Word :=
  BitVec.ofNat 256 (Bytes.ofBigEndian bytes)

@[simp] theorem length_toBytes (word : Word) : word.toBytes.length = 32 :=
  Bytes.length_toBigEndian 32 _

/-- The octets of a word determine it. -/
@[simp] theorem ofBytes_toBytes (word : Word) : ofBytes word.toBytes = word := by
  apply BitVec.eq_of_toNat_eq
  have h := word.isLt
  rw [ofBytes, toBytes, Bytes.ofBigEndian_toBigEndian, BitVec.toNat_ofNat,
    show 256 ^ 32 = 2 ^ 256 by decide, Nat.mod_mod, Nat.mod_eq_of_lt h]

/-- The octets of a word are the digits of its number. -/
theorem ofBigEndian_toBytes (word : Word) : Bytes.ofBigEndian word.toBytes = word.toNat := by
  rw [toBytes, Bytes.ofBigEndian_toBigEndian]
  exact Nat.mod_eq_of_lt word.isLt

/-- The word of at most 32 octets has the number of the octets. -/
theorem toNat_ofBytes {bytes : Bytes} (h : bytes.length ≤ 32) : (ofBytes bytes).toNat = Bytes.ofBigEndian bytes := by
  have hlt : Bytes.ofBigEndian bytes < 256 ^ 32 :=
    Nat.lt_of_lt_of_le (Bytes.ofBigEndian_lt bytes) (Nat.pow_le_pow_right (by decide) h)
  rw [ofBytes, BitVec.toNat_ofNat]
  exact Nat.mod_eq_of_lt hlt

theorem toBytes_injective {a b : Word} (h : a.toBytes = b.toBytes) : a = b := by
  simpa using congrArg ofBytes h

/-- The word of a number below 2^256. -/
def ofNat? (n : Nat) : Option Word :=
  if n < 2 ^ 256 then some (BitVec.ofNat 256 n) else none

/-- The decimal digits of a word read as a number. -/
def toDecimal (word : Word) : String :=
  toString word.toNat

end Word
end EthWire
