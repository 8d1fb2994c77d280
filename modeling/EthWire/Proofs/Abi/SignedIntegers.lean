/-
# Signed integers as words

The ranges of integer types are checked on octets, and the checks are those of the numbers at every width that a
type text can name (`Abi.fitsUint_iff`, `Abi.fitsInt_iff`).

Integers of 128 bits go into a signed value and come out of it by octets too. The 16 octets of the integer stand
behind 16 that repeat its sign, and together they are the integer's word (`Abi.Value.ofInt_eq`): behind ones the
number is 2^256 less than it looks, as it was 2^128 less before. The way back takes the lower half, once the upper
one is known to repeat the sign. So the integer of a signed value is the two's complement number of its word, where
that has room in 128 bits, and the value of an integer is the only one that it is read from
(`Abi.Value.toInt128?_eq_some_iff`).

Key theorems: `Abi.Value.ofInt_eq`, `Abi.Value.toInt128?_int_eq_some_iff`, `Abi.Value.toInt128?_eq_some_iff`,
`Abi.integers_are_held_to_their_ranges`.
-/
import EthWire.Proofs.Abi.CanonicalText

namespace EthWire
namespace Abi

theorem Kind.isBitWidth_of_parse {text : List Char} {bits : Nat}
    (h : parse text = .ok (.uint bits) ∨ parse text = .ok (.int bits)) : IsBitWidth bits := by
  rcases h with huint | hint
  · cases isAdmitted_iff.mpr ⟨text, huint⟩ with
    | uint width => exact width
  · cases isAdmitted_iff.mpr ⟨text, hint⟩ with
    | int width => exact width

theorem isBitWidth_128 : IsBitWidth 128 := by
  decide

namespace Value

/-! ### Integers of 128 bits -/

/-- The octets of an integer behind its sign are those of its word. -/
theorem ofInt_eq {v : Int} (h : InIntRange 128 v) : ofInt v = .int (BitVec.ofInt 256 v) := by
  obtain ⟨hleast, hgreatest⟩ := h
  have hlow : (BitVec.ofInt 128 v).toNat < 256 ^ 16 := (BitVec.ofInt 128 v).isLt
  have hones : Bytes.ofBigEndian (List.replicate 16 0xff) = 2 ^ 128 - 1 :=
    Nat.eq_sub_of_add_eq (Bytes.ofBigEndian_replicate_ones 16)
  have hword : Bytes.ofBigEndian (List.replicate 16 (if v < 0 then 0xff else 0)
      ++ Bytes.toBigEndian 16 (BitVec.ofInt 128 v).toNat) = (BitVec.ofInt 256 v).toNat := by
    rw [Bytes.ofBigEndian_append, Bytes.ofBigEndian_toBigEndian, Bytes.length_toBigEndian, Nat.mod_eq_of_lt hlow,
      BitVec.toNat_ofInt, BitVec.toNat_ofInt]
    by_cases hsign : v < 0
    · rw [if_pos hsign, hones]
      omega
    · rw [if_neg hsign, Bytes.ofBigEndian_replicate_zero]
      omega
  rw [ofInt, Word.ofBytes, hword, BitVec.ofNat_toNat, BitVec.setWidth_eq]

/-- The lower half of a word whose number has room in 128 bits is that number. -/
theorem toInt_low_half {word : Word} (h : InIntRange 128 word.toInt) :
    (BitVec.ofNat 128 (Bytes.ofBigEndian (word.toBytes.drop 16))).toInt = word.toInt := by
  have hlow : Bytes.ofBigEndian (word.toBytes.drop 16) = word.toNat % 2 ^ 128 :=
    ofBigEndian_drop_toBytes isBitWidth_128.whole isBitWidth_128.greatest word
  have hlt := word.isLt
  have hnumber := word.toInt_eq_toNat_cond
  obtain ⟨hleast, hgreatest⟩ := h
  rw [hlow, BitVec.toInt_ofNat', Int.bmod_def]
  split at hnumber <;> omega

/-- The integer of a signed value is the two's complement number of its word, where that has room. -/
theorem toInt128?_int_eq_some_iff {word : Word} {v : Int} :
    (int word).toInt128? = some v ↔ word.toInt = v ∧ InIntRange 128 v := by
  rw [toInt128?, Option.ite_none_right_eq_some, fitsInt_iff isBitWidth_128, Option.some.injEq]
  constructor
  · rintro ⟨hrange, rfl⟩
    rw [toInt_low_half hrange]
    exact ⟨rfl, hrange⟩
  · rintro ⟨rfl, hrange⟩
    exact ⟨hrange, toInt_low_half hrange⟩

theorem exists_int_of_toInt128? {value : Value} {v : Int} (h : value.toInt128? = some v) :
    ∃ word, value = .int word := by
  cases value with
  | int word => exact ⟨word, rfl⟩
  | _ => cases h

/-- An integer is read from its own value only. -/
theorem toInt128?_eq_some_iff {value : Value} {v : Int} :
    value.toInt128? = some v ↔ InIntRange 128 v ∧ value = ofInt v := by
  constructor
  · intro h
    obtain ⟨word, rfl⟩ := exists_int_of_toInt128? h
    obtain ⟨rfl, hrange⟩ := toInt128?_int_eq_some_iff.mp h
    refine ⟨hrange, ?_⟩
    rw [ofInt_eq hrange, BitVec.ofInt_toInt]
  · rintro ⟨hrange, rfl⟩
    have hword := inIntRange_256 isBitWidth_128.greatest hrange
    rw [ofInt_eq hrange, toInt128?_int_eq_some_iff]
    exact ⟨BitVec.toInt_ofInt_eq_self (by decide) hword.1 hword.2, hrange⟩

end Value

/-- **Integers are held to their ranges.** At every width that the text of an integer type names, a word fits the
unsigned type exactly if its number is below 2^bits, and the signed type exactly if its two's complement number is
in the range. The integer of a signed value is this number, if it has room in 128 bits, and otherwise there is
none. Of all values, the one that is made of an integer of 128 bits is the only one that has it. -/
theorem integers_are_held_to_their_ranges :
    (∀ (text : List Char) (bits : Nat), Kind.parse text = .ok (.uint bits) ∨ Kind.parse text = .ok (.int bits) →
      ∀ word : Word, (fitsUint word bits = true ↔ word.toNat < 2 ^ bits) ∧
        (fitsInt word bits = true ↔ InIntRange bits word.toInt)) ∧
    (∀ (word : Word) (v : Int), (Value.int word).toInt128? = some v ↔ word.toInt = v ∧ InIntRange 128 v) ∧
    ∀ (value : Value) (v : Int), value.toInt128? = some v ↔ InIntRange 128 v ∧ value = .ofInt v := by
  refine ⟨fun text bits hparse word => ?_, fun word v => Value.toInt128?_int_eq_some_iff,
    fun value v => Value.toInt128?_eq_some_iff⟩
  have hwidth := Kind.isBitWidth_of_parse hparse
  exact ⟨fitsUint_iff hwidth, fitsInt_iff hwidth⟩

/-- The ranges of 8 bits end at 255, and at minus 128. Minus 2^127 is the least integer of 128 bits, and the word
of 2^127, which has the same lower half, is none. -/
theorem ranges_of_8_and_128_bits_end :
    Kind.parse "int8".toList = .ok (.int 8) ∧
      fitsUint 255 8 = true ∧ ¬ fitsUint 256 8 = true ∧
      fitsInt (BitVec.ofInt 256 (-128)) 8 = true ∧ ¬ fitsInt (BitVec.ofInt 256 (-129)) 8 = true ∧
      (Value.ofInt (-((2 ^ 127 : Nat) : Int))).toInt128? = some (-((2 ^ 127 : Nat) : Int)) ∧
      ¬ (Value.int (BitVec.ofNat 256 (2 ^ 127))).toInt128? = some (-((2 ^ 127 : Nat) : Int)) := by
  have hwidth : IsBitWidth 8 := by decide
  have hparse : Kind.parse "int8".toList = .ok (.int 8) := Kind.parse_int_eq_ok_iff.mpr ⟨rfl, hwidth⟩
  obtain ⟨hfits, hinteger, hvalue⟩ := integers_are_held_to_their_ranges
  have hfits8 := hfits _ 8 (.inr hparse)
  exact ⟨hparse, (hfits8 255).1.mpr (by decide), fun h => absurd ((hfits8 256).1.mp h) (by decide),
    (hfits8 _).2.mpr (by decide), fun h => absurd ((hfits8 _).2.mp h) (by decide),
    (hvalue _ _).mpr ⟨by decide, rfl⟩, fun h => absurd ((hinteger _ _).mp h).1 (by decide)⟩

end Abi
end EthWire
