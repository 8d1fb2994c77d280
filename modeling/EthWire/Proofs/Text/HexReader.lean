/-
# What is read as hex text

A pair of characters is read as a numeral, so besides two digits it may be a plus sign and one digit; an odd last
character must be a digit. Nothing else is hex text (`Hex.isHexText`), neither another character nor a part of
one: a text of octets that are all read consists of ASCII characters, since the octets of others are no digits.
So the reader accepts exactly the hex texts, with one `0x` in front or without it (`Hex.decode_eq_ok_iff`). A plus
sign counts nothing, as a zero in its place does.

Key definitions: `Hex.isHexText`, `Hex.character`, `Hex.withZeros`.
Key theorems: `Hex.decodeOctets_eq_ok_iff`, `Hex.decode_eq_ok_iff`, `Hex.forall_isHexDigit_iff`,
`Hex.ofPairs_withZeros`.
-/
import EthWire.Proofs.Text.Hex

namespace EthWire

open Numeral (digitValue isHexDigit)

/-! ### Numerals of one character or two -/

namespace Numeral

theorem isHexDigit_of_digitValue? {c : Char} {value : Nat} (h : digitValue? 16 c = some value) :
    isHexDigit c = true := by
  have hlt : c.toNat < 128 := by
    simp only [digitValue?, Option.ite_none_right_eq_some] at h
    have hrange := h.1
    split at hrange
    · omega
    · split at hrange
      · omega
      · split at hrange <;> omega
  have hall : ∀ n < 128, (digitValue? 16 (Char.ofNat n)).isSome → isHexDigit (Char.ofNat n) = true := by decide
  have hchar := hall c.toNat hlt
  rw [Char.ofNat_toNat, h] at hchar
  exact hchar rfl

theorem ne_plus_of_isHexDigit {c : Char} (h : isHexDigit c = true) : c ≠ '+' := by
  rintro rfl
  cases h

theorem digitValue?_eq_some_iff {c : Char} {value : Nat} :
    digitValue? 16 c = some value ↔ isHexDigit c = true ∧ value = digitValue c := by
  constructor
  · intro h
    have hdigit := isHexDigit_of_digitValue? h
    rw [digitValue?_of_isHexDigit hdigit, Option.some.injEq] at h
    exact ⟨hdigit, h.symm⟩
  · rintro ⟨hdigit, rfl⟩
    exact digitValue?_of_isHexDigit hdigit

theorem readMore?_cons_eq_some_iff {value n : Nat} {c : Char} {rest : List Char} :
    readMore? 16 value (c :: rest) = some n ↔
      isHexDigit c = true ∧ readMore? 16 (value * 16 + digitValue c) rest = some n := by
  rw [readMore?]
  cases hdigit : digitValue? 16 c with
  | none =>
    have hno : ¬ isHexDigit c = true := by
      intro hc
      rw [digitValue?_of_isHexDigit hc] at hdigit
      cases hdigit
    simp [hno]
  | some d =>
    obtain ⟨hc, rfl⟩ := digitValue?_eq_some_iff.mp hdigit
    simp [hc]

theorem readDigits?_cons_eq_some_iff {c : Char} {rest : List Char} {n : Nat} :
    readDigits? 16 (c :: rest) = some n ↔ isHexDigit c = true ∧ readMore? 16 (digitValue c) rest = some n := by
  rw [readDigits?, readMore?_cons_eq_some_iff, Nat.zero_mul, Nat.zero_add]

theorem read?_of_ne_plus {base : Nat} {c : Char} {rest : List Char} (h : c ≠ '+') :
    read? base (c :: rest) = readDigits? base (c :: rest) := by
  unfold read?
  split
  · rename_i others hplus
    exact absurd (List.cons.inj hplus).1 h
  · rfl

theorem read?_singleton_eq_some_iff {c : Char} {n : Nat} :
    read? 16 [c] = some n ↔ isHexDigit c = true ∧ digitValue c = n := by
  by_cases hplus : c = '+'
  · subst hplus
    have hno : isHexDigit '+' = false := rfl
    rw [hno]
    simp [read?, readDigits?]
  · rw [read?_of_ne_plus hplus, readDigits?_cons_eq_some_iff, readMore?, Option.some.injEq]

theorem read?_pair_eq_some_iff {c d : Char} {n : Nat} :
    read? 16 [c, d] = some n ↔
      (isHexDigit c = true ∨ c = '+') ∧ isHexDigit d = true ∧ digitValue c * 16 + digitValue d = n := by
  by_cases hplus : c = '+'
  · subst hplus
    have hzero : digitValue '+' = 0 := rfl
    rw [read?, readDigits?_cons_eq_some_iff, readMore?, hzero, Nat.zero_mul, Nat.zero_add, Option.some.injEq]
    simp
  · rw [read?_of_ne_plus hplus, readDigits?_cons_eq_some_iff, readMore?_cons_eq_some_iff, readMore?,
      Option.some.injEq]
    simp [hplus]

end Numeral

/-! ### Pairs that are read -/

namespace Hex

/-- Pairs of digits, in each of which a plus sign may stand for the first one; an odd last character is a digit. -/
def isHexText : List Char → Bool
  | [] => true
  | [c] => isHexDigit c
  | c :: d :: rest => (isHexDigit c || c == '+') && isHexDigit d && isHexText rest

theorem isHexText_pair_iff {c d : Char} {rest : List Char} :
    isHexText (c :: d :: rest) = true ↔
      (isHexDigit c = true ∨ c = '+') ∧ isHexDigit d = true ∧ isHexText rest = true := by
  rw [isHexText, Bool.and_eq_true, Bool.and_eq_true, Bool.or_eq_true, beq_iff_eq, and_assoc]

/-- The character with the code of an octet. -/
def character (b : UInt8) : Char :=
  Char.ofNat b.toNat

theorem toNat_character (b : UInt8) : (character b).toNat = b.toNat := by
  have hb := b.toNat_lt
  have hvalid : b.toNat.isValidChar := .inl (by omega)
  unfold character Char.ofNat
  rw [dif_pos hvalid]
  rfl

theorem lt_of_isHexDigit_character {b : UInt8} (h : isHexDigit (character b) = true ∨ character b = '+') :
    b < 0x80 := by
  rw [UInt8.lt_iff_toNat_lt, ← toNat_character]
  rcases h with hdigit | hplus
  · exact toNat_lt_of_isHexDigit hdigit
  · rw [hplus]
    decide

theorem readPair_eq_ok_iff {pair : Bytes} {b : UInt8} :
    readPair pair = .ok b ↔
      isUtf8Pair pair = true ∧ ∃ n, Numeral.read? 16 (pair.map character) = some n ∧ UInt8.ofNat n = b := by
  unfold readPair
  by_cases hutf8 : isUtf8Pair pair = true
  · have hchars : (pair.map fun b => Char.ofNat b.toNat) = pair.map character := rfl
    rw [if_pos hutf8, hchars]
    cases Numeral.read? 16 (pair.map character) <;> simp [hutf8]
  · simp [hutf8]

theorem readPair_singleton_eq_ok_iff {a b : UInt8} :
    readPair [a] = .ok b ↔ isHexDigit (character a) = true ∧ UInt8.ofNat (digitValue (character a)) = b := by
  rw [readPair_eq_ok_iff, List.map_singleton]
  simp only [Numeral.read?_singleton_eq_some_iff]
  constructor
  · rintro ⟨-, n, ⟨hdigit, rfl⟩, rfl⟩
    exact ⟨hdigit, rfl⟩
  · rintro ⟨hdigit, rfl⟩
    have hascii := lt_of_isHexDigit_character (.inl hdigit)
    exact ⟨isUtf8Pair_of_ascii (by simp) (by simp) (by simpa using hascii), _, ⟨hdigit, rfl⟩, rfl⟩

theorem readPair_pair_eq_ok_iff {a a' b : UInt8} :
    readPair [a, a'] = .ok b ↔
      (isHexDigit (character a) = true ∨ character a = '+') ∧ isHexDigit (character a') = true ∧
        UInt8.ofNat (digitValue (character a) * 16 + digitValue (character a')) = b := by
  rw [readPair_eq_ok_iff, List.map_cons, List.map_singleton]
  simp only [Numeral.read?_pair_eq_some_iff]
  constructor
  · rintro ⟨-, n, ⟨hfirst, hsecond, rfl⟩, rfl⟩
    exact ⟨hfirst, hsecond, rfl⟩
  · rintro ⟨hfirst, hsecond, rfl⟩
    have hascii := lt_of_isHexDigit_character hfirst
    have hascii' := lt_of_isHexDigit_character (.inl hsecond)
    exact ⟨isUtf8Pair_of_ascii (by simp) (by simp) (by simp [hascii, hascii']), _, ⟨hfirst, hsecond, rfl⟩, rfl⟩

/-- Octets are read exactly if their characters are hex text, as its pairs. -/
theorem decodeOctets_eq_ok_iff : ∀ {octets bytes : Bytes},
    decodeOctets octets = .ok bytes ↔
      isHexText (octets.map character) = true ∧ ofPairs (octets.map character) = bytes
  | [], bytes => by
    simp [decodeOctets, Bytes.blocks, isHexText, ofPairs, pure_eq_ok_iff]
  | [a], bytes => by
    rw [decodeOctets, Bytes.blocks_of_length_le (Nat.zero_le 1), mapM_cons_eq_ok_iff, List.map_singleton, isHexText,
      ofPairs]
    simp only [readPair_singleton_eq_ok_iff, List.mapM_nil, pure_eq_ok_iff]
    constructor
    · rintro ⟨b, others, ⟨hdigit, rfl⟩, rfl, rfl⟩
      exact ⟨hdigit, rfl⟩
    · rintro ⟨hdigit, rfl⟩
      exact ⟨_, _, ⟨hdigit, rfl⟩, rfl, rfl⟩
  | a :: a' :: rest, bytes => by
    have hrest : ∀ {bytes : Bytes}, (Bytes.blocks 1 rest).mapM readPair = .ok bytes ↔ _ := decodeOctets_eq_ok_iff
    rw [decodeOctets, Bytes.blocks_cons, mapM_cons_eq_ok_iff, List.map_cons, List.map_cons, isHexText_pair_iff, ofPairs]
    simp only [List.take_succ_cons, List.take_zero, List.drop_succ_cons, List.drop_zero, readPair_pair_eq_ok_iff,
      hrest]
    constructor
    · rintro ⟨b, others, ⟨hfirst, hsecond, rfl⟩, ⟨htext, rfl⟩, rfl⟩
      exact ⟨⟨hfirst, hsecond, htext⟩, rfl⟩
    · rintro ⟨⟨hfirst, hsecond, htext⟩, rfl⟩
      exact ⟨_, _, ⟨hfirst, hsecond, rfl⟩, ⟨htext, rfl⟩, rfl⟩

/-! ### Texts that are read -/

theorem isAscii_of_isHexText : ∀ {text : List Char}, isHexText text = true → ∀ c ∈ text, c.toNat < 128
  | [], _ => by simp
  | [c], h => by
    rw [List.forall_mem_singleton]
    exact toNat_lt_of_isHexDigit h
  | c :: d :: rest, h => by
    obtain ⟨hfirst, hsecond, hrest⟩ := isHexText_pair_iff.mp h
    have hc : c.toNat < 128 := by
      rcases hfirst with hdigit | rfl
      · exact toNat_lt_of_isHexDigit hdigit
      · decide
    rw [List.forall_mem_cons, List.forall_mem_cons]
    exact ⟨hc, toNat_lt_of_isHexDigit hsecond, isAscii_of_isHexText hrest⟩

theorem map_character_octets {chars : List Char} (h : ∀ c ∈ chars, c.toNat < 128) :
    (Text.octets (String.ofList chars)).map character = chars := by
  have hback : ∀ c ∈ chars, character (UInt8.ofNat c.toNat) = c := by
    intro c hc
    have hlt := h c hc
    rw [character, UInt8.toNat_ofNat', Nat.mod_eq_of_lt (by omega), Char.ofNat_toNat]
  rw [Text.octets_of_ascii h, List.map_map]
  exact (List.map_congr_left hback).trans (List.map_id chars)

theorem octets_map_character {octets : Bytes} (h : ∀ c ∈ octets.map character, c.toNat < 128) :
    Text.octets (String.ofList (octets.map character)) = octets := by
  have hback : ∀ b ∈ octets, UInt8.ofNat (character b).toNat = b := by
    intro b _
    rw [toNat_character, UInt8.ofNat_toNat]
  rw [Text.octets_of_ascii h, List.map_map]
  exact (List.map_congr_left hback).trans (List.map_id octets)

theorem decodeOctets_octets_eq_ok_iff {chars : List Char} {bytes : Bytes} :
    decodeOctets (Text.octets (String.ofList chars)) = .ok bytes ↔ isHexText chars = true ∧ ofPairs chars = bytes := by
  rw [decodeOctets_eq_ok_iff]
  constructor
  · intro h
    -- the characters of the octets are ASCII, so the text consists of them
    have htext := Text.octets_injective (octets_map_character (isAscii_of_isHexText h.1))
    rw [String.ofList_inj] at htext
    rwa [htext] at h
  · intro h
    rwa [map_character_octets (isAscii_of_isHexText h.1)]

theorem octetCount_of_isHexText {chars : List Char} (h : isHexText chars = true) :
    Text.octetCount (String.ofList chars) = chars.length := by
  rw [← Text.length_octets, Text.octets_of_ascii (isAscii_of_isHexText h), List.length_map]

/-- Exactly hex text is read, with one `0x` in front or without it. -/
theorem decode_eq_ok_iff {text : String} {bytes : Bytes} :
    decode text = .ok bytes ↔
      isHexText (Text.after0x text.toList) = true ∧ ofPairs (Text.after0x text.toList) = bytes :=
  decodeOctets_octets_eq_ok_iff

/-- The `0x` is no hex text itself, so only one of the two is the case. -/
theorem decode_ofList_eq_ok_iff {chars : List Char} {bytes : Bytes} :
    decode (String.ofList chars) = .ok bytes ↔
      (isHexText chars = true ∧ ofPairs chars = bytes) ∨
        ∃ rest, chars = '0' :: 'x' :: rest ∧ isHexText rest = true ∧ ofPairs rest = bytes := by
  rw [decode_eq_ok_iff, String.toList_ofList]
  unfold Text.after0x
  split
  · rename_i rest
    have hmark : isHexText ('0' :: 'x' :: rest) = false := rfl
    rw [hmark]
    simp
  · rename_i hmark
    constructor
    · exact .inl
    · rintro (h | ⟨rest, rfl, -⟩)
      · exact h
      · exact absurd rfl (hmark rest)

/-! ### Plus signs -/

/-- Without plus signs hex text consists of digits. -/
theorem forall_isHexDigit_iff : ∀ {text : List Char},
    (∀ c ∈ text, isHexDigit c = true) ↔ isHexText text = true ∧ '+' ∉ text
  | [] => by simp [isHexText]
  | [c] => by
    rw [List.forall_mem_singleton, isHexText, List.mem_singleton]
    exact ⟨fun hdigit => ⟨hdigit, (Numeral.ne_plus_of_isHexDigit hdigit).symm⟩, fun h => h.1⟩
  | c :: d :: rest => by
    rw [List.forall_mem_cons, List.forall_mem_cons, forall_isHexDigit_iff, isHexText_pair_iff]
    simp only [List.mem_cons, not_or]
    constructor
    · rintro ⟨hc, hd, hrest, hmem⟩
      exact ⟨⟨.inl hc, hd, hrest⟩, (Numeral.ne_plus_of_isHexDigit hc).symm,
        (Numeral.ne_plus_of_isHexDigit hd).symm, hmem⟩
    · rintro ⟨⟨hc, hd, hrest⟩, hne, -, hmem⟩
      exact ⟨hc.resolve_right (Ne.symm hne), hd, hrest, hmem⟩

/-- The text with zeros in place of its plus signs. -/
def withZeros (text : List Char) : List Char :=
  text.map fun c => if c = '+' then '0' else c

/-- A plus sign counts what a zero does. -/
theorem ofPairs_withZeros (text : List Char) : ofPairs (withZeros text) = ofPairs text := by
  apply ofPairs_congr
  rw [withZeros, List.map_map]
  apply List.map_congr_left
  intro c _
  rw [Function.comp_apply]
  split
  · rename_i hplus
    rw [hplus]
    rfl
  · rfl

theorem isHexDigit_of_mem_withZeros : ∀ {text : List Char}, isHexText text = true →
    ∀ c ∈ withZeros text, isHexDigit c = true
  | [], _ => by simp [withZeros]
  | [c], h => by
    rw [withZeros, List.map_singleton, List.forall_mem_singleton]
    split
    · rfl
    · exact h
  | c :: d :: rest, h => by
    obtain ⟨hfirst, hsecond, hrest⟩ := isHexText_pair_iff.mp h
    have hboth : ∀ {c : Char}, isHexDigit c = true ∨ c = '+' → isHexDigit (if c = '+' then '0' else c) = true := by
      intro c hc
      split
      · rfl
      · rename_i hne
        exact hc.resolve_right hne
    rw [withZeros, List.map_cons, List.map_cons, List.forall_mem_cons, List.forall_mem_cons]
    exact ⟨hboth hfirst, hboth (.inl hsecond), isHexDigit_of_mem_withZeros hrest⟩

theorem withZeros_of_not_mem {text : List Char} (h : '+' ∉ text) : withZeros text = text := by
  have hsame : ∀ c ∈ text, (if c = '+' then '0' else c) = c := by
    intro c hc
    rw [if_neg]
    rintro rfl
    exact h hc
  exact (List.map_congr_left hsame).trans (List.map_id text)

end Hex
end EthWire
