/-
# Hex text that was written is read again

Two digits are written for every octet, and two digits are read as one (`Hex.ofPairs_encode`). Their case does
not count: digits that have the same values are the same octets (`Hex.ofPairs_congr`). A text of digits is
read with `0x` in front or without it, since no digit is an `x` (`Hex.decode_ofList`), so all texts of octets
are read as them (`Hex.spellings`).

Key definitions: `Hex.spellings`.
Key theorems: `Hex.ofPairs_encode`, `Hex.decode_ofList`, `Hex.decode_data`,
`Hex.decode_after0x_of_mem_spellings`, `Word.ofHex_word`.
-/
import EthWire.Proofs.Rlp.Conventions
import EthWire.Proofs.Text.Numeral

namespace EthWire

namespace Hex

open Numeral (digitValue number isHexDigit digitValue?_of_isHexDigit)

/-! ### Digits that are written -/

theorem isHexDigit_digit {n : Nat} (h : n < 16) : isHexDigit (digit n) = true := by
  have hall : ∀ n < 16, isHexDigit (digit n) = true := by decide
  exact hall n h

theorem digitValue_digit {n : Nat} (h : n < 16) : digitValue (digit n) = n := by
  have hall : ∀ n < 16, digitValue (digit n) = n := by decide
  exact hall n h

theorem isHexDigit_toUpper {c : Char} (h : isHexDigit c = true) : isHexDigit c.toUpper = true := by
  have hall : "0123456789abcdefABCDEF".toList.all (fun c => isHexDigit c.toUpper) = true := by decide
  exact List.all_eq_true.mp hall c (List.contains_iff_mem.mp h)

theorem digitValue_toUpper {c : Char} (h : isHexDigit c = true) : digitValue c.toUpper = digitValue c := by
  have hall : "0123456789abcdefABCDEF".toList.all (fun c => digitValue c.toUpper == digitValue c) = true := by decide
  exact eq_of_beq (List.all_eq_true.mp hall c (List.contains_iff_mem.mp h))

theorem isHexDigit_of_mem_encode {bytes : Bytes} {c : Char} (h : c ∈ encode bytes) : isHexDigit c = true := by
  obtain ⟨b, -, hc⟩ := List.mem_flatMap.mp h
  have hb := b.toNat_lt
  rw [octet, List.mem_cons, List.mem_singleton] at hc
  rcases hc with rfl | rfl
  · exact isHexDigit_digit (by omega)
  · exact isHexDigit_digit (by omega)

/-- The digits of octets are the octets again. -/
theorem ofPairs_encode : ∀ bytes : Bytes, ofPairs (encode bytes) = bytes
  | [] => rfl
  | b :: bytes => by
    have hb := b.toNat_lt
    have hdigits : encode (b :: bytes) = digit (b.toNat / 16) :: digit (b.toNat % 16) :: encode bytes := rfl
    have hoctet : b.toNat / 16 * 16 + b.toNat % 16 = b.toNat := by omega
    rw [hdigits, ofPairs, digitValue_digit (by omega), digitValue_digit (by omega), hoctet, UInt8.ofNat_toNat,
      ofPairs_encode bytes]

/-! ### Digits that are read -/

theorem ofPairs_congr : ∀ {digits others : List Char}, digits.map digitValue = others.map digitValue →
    ofPairs digits = ofPairs others
  | [], others, h => by
    obtain rfl := List.map_eq_nil_iff.mp h.symm
    rfl
  | [c], others, h => by
    obtain ⟨c', rest, rfl, hc, hrest⟩ := List.map_eq_cons_iff.mp h.symm
    obtain rfl := List.map_eq_nil_iff.mp hrest
    rw [ofPairs, ofPairs, hc]
  | c :: d :: rest, others, h => by
    obtain ⟨c', others, rfl, hc, hothers⟩ := List.map_eq_cons_iff.mp h.symm
    obtain ⟨d', others, rfl, hd, hothers⟩ := List.map_eq_cons_iff.mp hothers
    rw [ofPairs, ofPairs, hc, hd, ofPairs_congr hothers.symm]

theorem after0x_of_isHexDigit {digits : List Char} (h : ∀ c ∈ digits, isHexDigit c = true) :
    Text.after0x digits = digits := by
  unfold Text.after0x
  split
  · rename_i rest
    have hx : isHexDigit 'x' = true := h 'x' (List.mem_cons_of_mem _ List.mem_cons_self)
    exact absurd hx (by decide)
  · rfl

/-- Digits are read as their octets without anything in front of them. -/
theorem decode_ofList {digits : List Char} (h : ∀ c ∈ digits, isHexDigit c = true) :
    decode (String.ofList digits) = .ok (ofPairs digits) := by
  rw [decode, String.toList_ofList, after0x_of_isHexDigit h,
    Text.octets_of_ascii fun c hc => toNat_lt_of_isHexDigit (h c hc), decodeOctets_digits h]

theorem octetCount_of_isHexDigit {digits : List Char} (h : ∀ c ∈ digits, isHexDigit c = true) :
    Text.octetCount (String.ofList digits) = digits.length := by
  rw [← Text.length_octets, Text.octets_of_ascii fun c hc => toNat_lt_of_isHexDigit (h c hc), List.length_map]

/-- Octets are read again from their hex text. -/
theorem decode_data (bytes : Bytes) : decode (data bytes) = .ok bytes := by
  rw [data, text, decode_digits fun _ => isHexDigit_of_mem_encode, ofPairs_encode]

/-! ### The texts of octets -/

/-- The digits of octets, with the letters in lower case or in upper case, by themselves or behind `0x`. -/
def spellings (bytes : Bytes) : List String :=
  [text bytes, data bytes, upper (text bytes), "0x" ++ upper (text bytes)]

theorem upper_text (bytes : Bytes) : upper (text bytes) = String.ofList ((encode bytes).map Char.toUpper) := by
  rw [upper, ← String.toList_inj, String.toList_map, text, String.toList_ofList, String.toList_ofList]

/-- Every text of octets consists of digits that are read as them, and perhaps a `0x` in front. -/
theorem exists_digits_of_mem_spellings {bytes : Bytes} {spelling : String} (h : spelling ∈ spellings bytes) :
    ∃ digits : List Char, (∀ c ∈ digits, isHexDigit c = true) ∧ ofPairs digits = bytes ∧
      (spelling = String.ofList digits ∨ spelling = "0x" ++ String.ofList digits) := by
  have hlower : ∀ c ∈ encode bytes, isHexDigit c = true := fun _ => isHexDigit_of_mem_encode
  have hupper : ∀ c ∈ (encode bytes).map Char.toUpper, isHexDigit c = true := by
    intro c hc
    obtain ⟨d, hd, rfl⟩ := List.mem_map.mp hc
    exact isHexDigit_toUpper (hlower d hd)
  have hvalues : ((encode bytes).map Char.toUpper).map digitValue = (encode bytes).map digitValue := by
    rw [List.map_map]
    exact List.map_congr_left fun c hc => digitValue_toUpper (hlower c hc)
  have hpairs : ofPairs ((encode bytes).map Char.toUpper) = bytes := by
    rw [ofPairs_congr hvalues, ofPairs_encode]
  simp only [spellings, upper_text, List.mem_cons, List.not_mem_nil, or_false] at h
  rcases h with rfl | rfl | rfl | rfl
  · exact ⟨_, hlower, ofPairs_encode bytes, .inl rfl⟩
  · exact ⟨_, hlower, ofPairs_encode bytes, .inr rfl⟩
  · exact ⟨_, hupper, hpairs, .inl rfl⟩
  · exact ⟨_, hupper, hpairs, .inr rfl⟩

/-- Octets are read again from each of their texts, also where a `0x` has been taken off before. -/
theorem decode_after0x_of_mem_spellings {bytes : Bytes} {spelling : String} (h : spelling ∈ spellings bytes) :
    decode (String.ofList (Text.after0x spelling.toList)) = .ok bytes := by
  obtain ⟨digits, hdigits, rfl, hspelling⟩ := exists_digits_of_mem_spellings h
  have hrest : Text.after0x spelling.toList = digits := by
    rcases hspelling with rfl | rfl
    · rw [String.toList_ofList, after0x_of_isHexDigit hdigits]
    · simp [Text.after0x]
  rw [hrest, decode_ofList hdigits]

end Hex

/-- A word is read again from its hex text. -/
theorem Word.ofHex_word (word : Word) : ofHex (Hex.word word) = .ok word := by
  rw [ofHex, Hex.word, Hex.decode_data]
  exact ofBytesExactly_eq_ok_iff.mpr rfl

end EthWire
