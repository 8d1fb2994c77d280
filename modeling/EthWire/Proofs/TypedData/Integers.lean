/-
# Integers in typed data

An integer in typed data is a JSON number or a text, and a text is a decimal numeral, with a minus sign
perhaps, or hex text. All spellings of one integer should have one word.

Decimal spellings do (`TypedData.readInt_eq_ok_iff`): an integer is read as its two's complement word if it
fits 256 bits, and the range of its type is checked on that word. The check of a magnitude behind a minus sign
has a gap, though. It looks for a magnitude above 2^255 in the octets below the highest one, so the multiples
of 2^248 from 129 * 2^248 on pass it, and minus such a magnitude is the word of a positive number
(`TypedData.IsOverlooked`). Only the width of 256 bits has room for it.

Hex text is read two digits at a time from the left, so it has the word of its number exactly if its digits
are even in number, or all but the last are zeros (`TypedData.hex_has_its_word_iff_paired`).

Key definitions: `TypedData.Spells`, `TypedData.IsOverlooked`.
Key theorems: `TypedData.readUint_numeral_eq_ok_iff`, `TypedData.readUint_hex`, `TypedData.readInt_eq_ok_iff`,
`TypedData.integers_have_their_word_or_none`, `TypedData.hex_has_its_word_iff_paired`.
-/
import EthWire.Proofs.Abi.IntegerTypes
import EthWire.TypedData.Payload

namespace EthWire
namespace TypedData

open Abi (InIntRange)
open Numeral (number isHexDigit)

/-- The integer that a value spells: a JSON integer stands for itself, and a text of decimal digits for the
number they denote, or for minus that number behind a minus sign. -/
inductive Spells : Json.Value → Int → Prop where
  | natural {n : Nat} (hbound : n < 2 ^ 64) : Spells (.number (.natural n)) n
  | negative {n : Nat} (hpos : 0 < n) (hbound : n ≤ 2 ^ 63) : Spells (.number (.negative n)) (-n)
  | numeral {digits : List Char} (hne : digits ≠ []) (hdigits : ∀ c ∈ digits, c.isDigit = true) :
      Spells (.string (String.ofList digits)) (number 10 digits)
  | minus {digits : List Char} (hne : digits ≠ []) (hdigits : ∀ c ∈ digits, c.isDigit = true) :
      Spells (.string (String.ofList ('-' :: digits))) (-number 10 digits)

/-- The integers below -2^255 whose magnitude the check does not find too large. -/
def IsOverlooked (value : Int) : Prop :=
  ∃ k : Nat, 129 ≤ k ∧ k ≤ 255 ∧ value = -(k * 2 ^ 248 : Nat)

/-! ### Unsigned integers -/

section

variable {digits : List Char} {word : Word}

theorem readUint_natural_eq_ok_iff {n : Nat} (hbound : n < 2 ^ 64) :
    readUint (.number (.natural n)) = .ok word ↔ word = BitVec.ofNat 256 n ∧ n < 2 ^ 256 := by
  rw [readUint, Except.ok.injEq, eq_comm]
  exact (and_iff_left (Nat.lt_trans hbound (by decide))).symm

theorem readUint_numeral_eq_ok_iff (hne : digits ≠ []) (hdigits : ∀ c ∈ digits, c.isDigit = true) :
    readUint (.string (String.ofList digits)) = .ok word ↔
      word = BitVec.ofNat 256 (number 10 digits) ∧ number 10 digits < 2 ^ 256 := by
  have hread : Numeral.read? 10 digits = some (number 10 digits) :=
    Numeral.read?_eq_number hne fun c hc => Numeral.digitValue?_of_isDigit (hdigits c hc)
  have hx : 'x' ∉ digits := fun hmem => by cases hdigits _ hmem
  have htext : (String.ofList digits).toList = digits := String.toList_ofList
  have hhex : ¬ "0x".toList.isPrefixOf (String.ofList digits).toList = true := by
    rw [List.isPrefixOf_iff_prefix, htext]
    exact fun hfront => hx (hfront.subset (by simp))
  have hnumeral : Word.ofNumeral? (String.ofList digits) = Word.ofNat? (number 10 digits) := by
    rw [Word.ofNumeral?, htext]
    split
    · exact absurd (by simp) hx
    · rw [hread]
      rfl
  rw [readUint, if_neg hhex, hnumeral, Word.ofNat?]
  by_cases hlt : number 10 digits < 2 ^ 256
  · rw [if_pos hlt, and_iff_left hlt]
    exact pure_eq_ok_iff.trans eq_comm
  · rw [if_neg hlt]
    constructor
    · intro h
      cases h
    · rintro ⟨-, hsmall⟩
      exact absurd hsmall hlt

theorem readUint_hex (hdigits : ∀ c ∈ digits, isHexDigit c = true) (hlength : digits.length ≤ 64) :
    readUint (.string ("0x" ++ String.ofList digits)) = .ok (Word.ofBytes (Hex.ofPairs digits)) := by
  have hprefix : "0x".toList.isPrefixOf ("0x" ++ String.ofList digits).toList = true := by
    rw [List.isPrefixOf_iff_prefix, String.toList_append]
    exact List.prefix_append _ _
  have hsize : ¬ (Hex.ofPairs digits).length > 32 := by
    rw [Hex.length_ofPairs]
    omega
  rw [readUint, if_pos hprefix, Hex.decode_digits hdigits]
  simp only [bind, Except.bind, if_neg hsize]
  rfl

end

/-! ### Signed integers -/

theorem positive_eq_ok_iff {value : Json.Value} {word : Word} :
    readInt.positive value = .ok word ↔ readUint value = .ok word ∧ word.toNat < 2 ^ 255 := by
  rw [readInt.positive, bind_eq_ok_iff]
  constructor
  · rintro ⟨read, hread, hcheck⟩
    by_cases hmsb : read.msb = true
    · rw [if_pos hmsb] at hcheck
      cases hcheck
    · rw [if_neg hmsb] at hcheck
      obtain rfl := pure_eq_ok_iff.mp hcheck
      rw [BitVec.msb_eq_decide, decide_eq_true_iff] at hmsb
      exact ⟨hread, Nat.lt_of_not_le hmsb⟩
  · rintro ⟨hread, hlt⟩
    refine ⟨word, hread, ?_⟩
    rw [if_neg]
    · rfl
    · rw [BitVec.msb_eq_decide, decide_eq_true_iff]
      exact Nat.not_le_of_lt hlt

/-- A magnitude is taken to be too large if it is 2^255 or more, and no multiple of 2^248. -/
theorem negative_eq_ok_iff {text : String} {magnitude word : Word} :
    negative text magnitude = .ok word ↔
      word = -magnitude ∧ (magnitude.toNat < 2 ^ 255 ∨ magnitude.toNat % 2 ^ 248 = 0) := by
  have hlarge : (magnitude.msb ∧ magnitude.setWidth 248 ≠ 0) ↔
      ¬ (magnitude.toNat < 2 ^ 255 ∨ magnitude.toNat % 2 ^ 248 = 0) := by
    rw [BitVec.msb_eq_decide, decide_eq_true_iff, not_or, Nat.not_lt, ne_eq, ← BitVec.toNat_inj,
      BitVec.toNat_setWidth]
    rfl
  rw [negative, invalid, ite_error_eq_ok_iff, hlarge, Decidable.not_not, and_comm, Except.ok.injEq, eq_comm]

theorem magnitude_passes_iff {n : Nat} :
    n < 2 ^ 256 ∧ (n < 2 ^ 255 ∨ n % 2 ^ 248 = 0) ↔
      InIntRange 256 (-n) ∨ IsOverlooked (-n) := by
  rw [InIntRange]
  constructor
  · rintro ⟨hlt, hsmall | hmultiple⟩
    · exact .inl (by omega)
    · by_cases hleast : n ≤ 2 ^ 255
      · exact .inl (by omega)
      · refine .inr ⟨n / 2 ^ 248, by omega, by omega, ?_⟩
        rw [Nat.div_mul_cancel (Nat.dvd_of_mod_eq_zero hmultiple)]
  · rintro (hrange | ⟨k, hlow, hhigh, heq⟩)
    · omega
    · omega

theorem positive_number_eq_ok_iff {value : Json.Value} {n : Nat}
    (hread : ∀ {word}, readUint value = .ok word ↔ word = BitVec.ofNat 256 n ∧ n < 2 ^ 256) {word : Word} :
    readInt.positive value = .ok word ↔
      word = BitVec.ofInt 256 n ∧ (InIntRange 256 n ∨ IsOverlooked n) := by
  rw [positive_eq_ok_iff, hread, BitVec.ofInt_natCast, InIntRange]
  constructor
  · rintro ⟨⟨rfl, hlt⟩, hsmall⟩
    rw [BitVec.toNat_ofNat, Nat.mod_eq_of_lt hlt] at hsmall
    exact ⟨rfl, .inl (by omega)⟩
  · rintro ⟨rfl, hrange | ⟨k, hlow, -, heq⟩⟩
    · have hlt : n < 2 ^ 256 := by omega
      refine ⟨⟨rfl, hlt⟩, ?_⟩
      rw [BitVec.toNat_ofNat, Nat.mod_eq_of_lt hlt]
      omega
    · omega

/-- A decimal spelling is read as its two's complement word exactly if the integer fits 256 bits, or the
check of the magnitude overlooks that it does not. -/
theorem readInt_eq_ok_iff {value : Json.Value} {v : Int} (h : Spells value v) {word : Word} :
    readInt value = .ok word ↔
      word = BitVec.ofInt 256 v ∧ (InIntRange 256 v ∨ IsOverlooked v) := by
  cases h with
  | natural hbound => exact positive_number_eq_ok_iff (readUint_natural_eq_ok_iff hbound)
  | @negative n hpos hbound =>
    have hrange : InIntRange 256 (-n) := by
      rw [InIntRange]
      omega
    rw [readInt, Except.ok.injEq, BitVec.ofInt_neg, BitVec.ofInt_natCast, eq_comm]
    exact (and_iff_left (.inl hrange)).symm
  | @numeral digits hne hdigits =>
    have htext : readInt (.string (String.ofList digits)) = readInt.positive (.string (String.ofList digits)) := by
      rw [readInt]
      split
      · rename_i magnitude hsign
        rw [String.toList_ofList] at hsign
        cases hdigits '-' (hsign ▸ List.mem_cons_self)
      · rfl
    rw [htext]
    exact positive_number_eq_ok_iff (readUint_numeral_eq_ok_iff hne hdigits)
  | @minus digits hne hdigits =>
    have htext : readInt (.string (String.ofList ('-' :: digits))) =
        readUint (.string (String.ofList digits)) >>= negative (String.ofList ('-' :: digits)) := by
      rw [readInt]
      simp only [String.toList_ofList]
    rw [htext, bind_eq_ok_iff, ← magnitude_passes_iff, BitVec.ofInt_neg, BitVec.ofInt_natCast]
    simp only [readUint_numeral_eq_ok_iff hne hdigits, negative_eq_ok_iff]
    constructor
    · rintro ⟨magnitude, ⟨rfl, hlt⟩, rfl, hpasses⟩
      rw [BitVec.toNat_ofNat, Nat.mod_eq_of_lt hlt] at hpasses
      exact ⟨rfl, hlt, hpasses⟩
    · rintro ⟨rfl, hlt, hpasses⟩
      refine ⟨_, ⟨rfl, hlt⟩, rfl, ?_⟩
      rw [BitVec.toNat_ofNat, Nat.mod_eq_of_lt hlt]
      exact hpasses

/-! ### Signed integers of a type -/

theorem inRange_eq_ok_iff {read : Except Error Word} {type : String} {fits : Word → Bool} {word : Word} :
    (read >>= fun word => inRange type (fits word) word) = .ok word ↔ read = .ok word ∧ fits word = true := by
  simp only [bind_eq_ok_iff, inRange, ite_ok_eq_ok_iff, Except.ok.injEq]
  constructor
  · rintro ⟨_, hread, hfits, rfl⟩
    exact ⟨hread, hfits⟩
  · rintro ⟨hread, hfits⟩
    exact ⟨word, hread, hfits, rfl⟩

theorem atomWord_int_eq_ok_iff {type : String} {bits : Nat} (htype : Abi.Kind.parse type.toList = .ok (.int bits))
    {value : Json.Value} {word : Word} :
    atomWord type value = .ok word ↔ readInt value = .ok word ∧ Abi.fitsInt word bits = true := by
  rw [atomWord.eq_def, htype]
  exact inRange_eq_ok_iff

/-- The word of an overlooked integer is that of a positive one, which only the greatest width has room for. -/
theorem fitsInt_of_isOverlooked {v : Int} (h : IsOverlooked v) {bits : Nat} (hbits : Abi.IsBitWidth bits) :
    Abi.fitsInt (BitVec.ofInt 256 v) bits = true ↔ bits = 256 := by
  obtain ⟨k, hlow, hhigh, rfl⟩ := h
  have hwraps : (BitVec.ofInt 256 (-(k * 2 ^ 248 : Nat))).toInt = (256 - k) * (2 ^ 248 : Nat) := by
    rw [BitVec.toInt_ofInt, Int.bmod_def]
    omega
  rw [Abi.fitsInt_iff hbits, hwraps, InIntRange]
  obtain ⟨hwhole, -, hgreatest⟩ := hbits
  constructor
  · rintro ⟨-, hroom⟩
    rcases Nat.lt_or_eq_of_le hgreatest with hless | rfl
    · have hsmall : 2 ^ (bits - 1) ≤ 2 ^ 247 := Nat.pow_le_pow_right (by decide) (by omega)
      omega
    · rfl
  · rintro rfl
    omega

/-- What a type accepts of the decimal spellings: the integers in its range, and those that are overlooked
where they have room. -/
theorem atomWord_int_iff_of_spells {bits : Nat} (hbits : Abi.IsBitWidth bits) {value : Json.Value} {v : Int}
    (h : Spells value v) {word : Word} :
    atomWord ("int" ++ toString bits) value = .ok word ↔
      word = BitVec.ofInt 256 v ∧ (InIntRange bits v ∨ bits = 256 ∧ IsOverlooked v) := by
  rw [atomWord_int_eq_ok_iff (Abi.Kind.parse_int_eq_ok_iff.mpr ⟨rfl, hbits⟩), readInt_eq_ok_iff h]
  constructor
  · rintro ⟨⟨rfl, hrange | hoverlooked⟩, hfits⟩
    · rw [Abi.fitsInt_iff hbits, BitVec.toInt_ofInt_eq_self (by decide) hrange.1 hrange.2] at hfits
      exact ⟨rfl, .inl hfits⟩
    · exact ⟨rfl, .inr ⟨(fitsInt_of_isOverlooked hoverlooked hbits).mp hfits, hoverlooked⟩⟩
  · rintro ⟨rfl, hrange | ⟨rfl, hoverlooked⟩⟩
    · have hword := Abi.inIntRange_256 hbits.greatest hrange
      refine ⟨⟨rfl, .inl hword⟩, ?_⟩
      rw [Abi.fitsInt_iff hbits, BitVec.toInt_ofInt_eq_self (by decide) hword.1 hword.2]
      exact hrange
    · exact ⟨⟨rfl, .inr hoverlooked⟩, (fitsInt_of_isOverlooked hoverlooked hbits).mpr rfl⟩

/-- **Decimal spellings of integers have their two's complement word, if they are in the range of the type, and
otherwise none**, whatever width the type has, except where the magnitude of a negative one is overlooked. -/
theorem integers_have_their_word_or_none {bits : Nat} {kind : Abi.Kind}
    (hadmitted : Abi.Kind.parse ("int" ++ toString bits).toList = .ok kind) {value : Json.Value} {v : Int}
    (h : Spells value v) :
    (InIntRange bits v → atomWord ("int" ++ toString bits) value = .ok (BitVec.ofInt 256 v)) ∧
    (¬ InIntRange bits v → ¬ (bits = 256 ∧ IsOverlooked v) →
      ∃ cause, atomWord ("int" ++ toString bits) value = .error cause) ∧
    (bits = 256 → IsOverlooked v → atomWord ("int" ++ toString bits) value = .ok (BitVec.ofInt 256 v)) := by
  have haccepted : ∀ word, atomWord ("int" ++ toString bits) value = .ok word ↔
      word = BitVec.ofInt 256 v ∧ (InIntRange bits v ∨ bits = 256 ∧ IsOverlooked v) :=
    fun _ => atomWord_int_iff_of_spells (Abi.Kind.parse_int_eq_ok_iff.mp hadmitted).2 h
  refine ⟨fun hrange => ?_, fun hout hseen => ?_, fun hwidth hoverlooked => ?_⟩
  · exact (haccepted _).mpr ⟨rfl, .inl hrange⟩
  · refine exists_error_of_forall_ne_ok fun word hword => ?_
    rcases ((haccepted word).mp hword).2 with hrange | hoverlooked
    · exact hout hrange
    · exact hseen hoverlooked
  · exact (haccepted _).mpr ⟨rfl, .inr ⟨hwidth, hoverlooked⟩⟩

/-- A range is taken to its ends: minus 128 has 8 bits, and minus 129 has not. -/
theorem minus_128_has_its_word :
    atomWord "int8" (.string "-128") = .ok (BitVec.ofInt 256 (-128)) ∧
      ∃ cause, atomWord "int8" (.string "-129") = .error cause := by
  have hwidth : Abi.IsBitWidth 8 := ⟨by decide, by decide, by decide⟩
  have hadmitted : Abi.Kind.parse "int8".toList = .ok (.int 8) := Abi.Kind.parse_int_eq_ok_iff.mpr ⟨rfl, hwidth⟩
  have hleast : Spells (.string "-128") (-128) :=
    @Spells.minus "128".toList (by decide) (List.all_eq_true.mp (by decide))
  have hbelow : Spells (.string "-129") (-129) :=
    @Spells.minus "129".toList (by decide) (List.all_eq_true.mp (by decide))
  exact ⟨(@integers_have_their_word_or_none 8 _ hadmitted _ _ hleast).1 (by decide),
    (@integers_have_their_word_or_none 8 _ hadmitted _ _ hbelow).2.1 (by decide) (fun h => absurd h.1 (by decide))⟩

/-- Minus 144 * 2^248 is below the range of all integer types, but has the word of 112 * 2^248. -/
theorem large_magnitude_has_a_positive_word :
    ∃ text v, text = "-65133050195990359925758679067386948167464366374422817272194891004451135422464" ∧
      Spells (.string text) v ∧ ¬ InIntRange 256 v ∧
      atomWord "int256" (.string text) = .ok (BitVec.ofNat 256 (112 * 2 ^ 248)) := by
  have hspells : Spells (.string "-65133050195990359925758679067386948167464366374422817272194891004451135422464")
      (-(144 * 2 ^ 248 : Nat)) :=
    @Spells.minus "65133050195990359925758679067386948167464366374422817272194891004451135422464".toList
      (by decide) (List.all_eq_true.mp (by decide))
  have hwidth : Abi.IsBitWidth 256 := ⟨by decide, by decide, by decide⟩
  exact ⟨_, _, rfl, hspells, by decide,
    (atomWord_int_iff_of_spells hwidth hspells).mpr ⟨by decide, .inr ⟨rfl, 144, by decide⟩⟩⟩

/-! ### Hex text -/

section

variable {digits : List Char}

theorem atomWord_uint_eq_ok_iff {type : String} {bits : Nat}
    (htype : Abi.Kind.parse type.toList = .ok (.uint bits)) {value : Json.Value} {word : Word} :
    atomWord type value = .ok word ↔ readUint value = .ok word ∧ Abi.fitsUint word bits = true := by
  rw [atomWord.eq_def, htype]
  exact inRange_eq_ok_iff

theorem atomWord_uint256 {value : Json.Value} {word : Word} :
    atomWord "uint256" value = .ok word ↔ readUint value = .ok word := by
  have hwidth : Abi.IsBitWidth 256 := by decide
  have htype : Abi.Kind.parse "uint256".toList = .ok (.uint 256) := Abi.Kind.parse_uint_eq_ok_iff.mpr ⟨rfl, hwidth⟩
  rw [atomWord_uint_eq_ok_iff htype, Abi.fitsUint_iff hwidth]
  exact and_iff_left word.isLt

theorem chainIdDecoder_string {codes : List Nat} {text : String} (hcodes : Json.textOfCodes? codes = some text)
    {levels : Nat} {word : Word} :
    Domain.chainIdDecoder levels (.string codes) = some word ↔ readUint (.string text) = .ok word := by
  rw [Domain.chainIdDecoder, Json.Decoder.value, Json.Tree.value?, hcodes]
  simp only [Option.map_some, Option.bind_eq_bind, Option.bind_some]
  cases readUint (.string text) <;> simp [Except.toOption]

theorem toNat_ofBytes_ofPairs (hlength : digits.length ≤ 64) :
    (Word.ofBytes (Hex.ofPairs digits)).toNat = Bytes.ofBigEndian (Hex.ofPairs digits) := by
  refine Word.toNat_ofBytes ?_
  rw [Hex.length_ofPairs]
  omega

/-- **Hex text is an unsigned integer in a message and in the chain id of a domain alike, and has the word of its
number, which is the word of the same number in decimal, exactly if its digits are paired from the right.** -/
theorem hex_has_its_word_iff_paired (hlength : digits.length ≤ 64)
    (hdigits : ∀ c ∈ digits, isHexDigit c = true) :
    ∃ word, readUint (.string ("0x" ++ String.ofList digits)) = .ok word ∧
      atomWord "uint256" (.string ("0x" ++ String.ofList digits)) = .ok word ∧
      (∀ levels codes, Json.textOfCodes? codes = some ("0x" ++ String.ofList digits) →
        Domain.chainIdDecoder levels (.string codes) = some word) ∧
      (word.toNat = number 16 digits ↔ Hex.IsPaired digits) ∧
      ∀ decimals, decimals ≠ [] → (∀ c ∈ decimals, c.isDigit = true) →
        number 10 decimals = number 16 digits →
          (atomWord "uint256" (.string (String.ofList decimals)) = .ok word ↔ Hex.IsPaired digits) := by
  have hread := readUint_hex hdigits hlength
  have hnumber : (Word.ofBytes (Hex.ofPairs digits)).toNat = number 16 digits ↔ Hex.IsPaired digits := by
    rw [toNat_ofBytes_ofPairs hlength]
    exact Hex.ofBigEndian_ofPairs_eq_iff hdigits
  refine ⟨_, hread, atomWord_uint256.mpr hread, fun levels codes hcodes => (chainIdDecoder_string hcodes).mpr hread,
    hnumber, fun decimals hsome hdecimals hsame => ?_⟩
  have hlt : number 16 digits < 2 ^ 256 := by
    have hdigit := Numeral.number_lt fun c hc => Numeral.digitValue?_of_isHexDigit (hdigits c hc)
    exact Nat.lt_of_lt_of_le hdigit (Nat.pow_le_pow_right (by decide) hlength)
  rw [atomWord_uint256, readUint_numeral_eq_ok_iff hsome hdecimals, hsame, and_iff_left hlt, ← hnumber,
    ← BitVec.toNat_inj, BitVec.toNat_ofNat, Nat.mod_eq_of_lt hlt]

/-- Behind a zero, three digits are four, and these are read as their number. -/
theorem four_digits_have_their_word :
    ∃ word, readUint (.string "0x0123") = .ok word ∧ word.toNat = number 16 "0123".toList ∧
      atomWord "uint256" (.string "291") = .ok word := by
  have hdigits : ∀ c ∈ "0123".toList, isHexDigit c = true := List.all_eq_true.mp (by decide)
  obtain ⟨word, hread, -, -, hnumber, hdecimals⟩ := hex_has_its_word_iff_paired (by decide) hdigits
  have hpaired : Hex.IsPaired "0123".toList := by decide
  exact ⟨word, hread, hnumber.mpr hpaired,
    (hdecimals "291".toList (by decide) (List.all_eq_true.mp (by decide)) (by decide)).mpr hpaired⟩

/-- Three digits are read as 12 and 3, which is 0x1203 in a message and in a chain id, and 291 in decimal is not. -/
theorem three_digits_have_a_larger_word :
    atomWord "uint256" (.string "0x123") = .ok 0x1203 ∧ atomWord "uint256" (.string "291") = .ok 0x123 ∧
      Domain.chainIdDecoder 0 (.string [0x30, 0x78, 0x31, 0x32, 0x33]) = some 0x1203 ∧
      number 16 "123".toList = 0x123 := by
  have hread : readUint (.string "0x123") = .ok 0x1203 :=
    @readUint_hex "123".toList (List.all_eq_true.mp (by decide)) (by decide)
  have hdecimal : readUint (.string "291") = .ok 0x123 :=
    (@readUint_numeral_eq_ok_iff "291".toList _ (by decide) (List.all_eq_true.mp (by decide))).mpr (by decide)
  exact ⟨atomWord_uint256.mpr hread, atomWord_uint256.mpr hdecimal,
    (chainIdDecoder_string (by decide)).mpr hread, by decide⟩

end

end TypedData
end EthWire
