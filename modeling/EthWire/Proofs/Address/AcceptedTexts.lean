/-
# Which texts are read as addresses

The text of an address is forty hex digits that are its number, by themselves or behind `0x`. Its letters are all
of one case or in the case of the checksum (`Address.IsSpelledBy`, `Address.IsCased`). All such texts are read
as their addresses, the checksum text among them.

They are not the only ones. The octets of an address are read as hex text is, in pairs that may have a plus sign
in front of a single digit (`Hex.isHexText`), so a plus sign is accepted for the first digit of an octet, as if
it were a zero. What is accepted is the text of an address exactly if there is no plus sign in it. Nothing else
gets in: the length is counted in octets, but no character that takes more than one is hex text, and a second
`0x`, which the hex reader skips, leaves an octet too few.

Key definitions: `Address.IsSpelledBy`, `Address.IsCased`.
Key theorems: `Address.parseAnyCase_eq_ok_iff`, `Address.parse_eq_ok_iff`,
`Address.texts_without_signs_are_those_of_addresses`.
-/
import EthWire.Proofs.Address.Text
import EthWire.Proofs.Text.HexReader

namespace EthWire

namespace Address

open Hex (isHexText withZeros ofPairs)
open Numeral (isHexDigit number)
open Text (after0x)

/-- Forty hex digits that are the number of the address. -/
structure IsSpelledBy (address : Address) (digits : List Char) : Prop where
  length_eq : digits.length = 40
  isHexDigit : ∀ c ∈ digits, isHexDigit c = true
  number_eq : number 16 digits = address.value.toNat

/-- Letters of one case, or in the case of the checksum. -/
def IsCased (address : Address) (digits : List Char) : Prop :=
  (∀ c ∈ digits, c.isUpper = false) ∨ (∀ c ∈ digits, c.isLower = false) ∨ digits = address.checksumDigits

variable {address : Address} {digits : List Char} {text : String}

theorem number_eq_iff (hlength : digits.length = 40) (h : ∀ c ∈ digits, isHexDigit c = true) :
    number 16 digits = address.value.toNat ↔ ofPairs digits = address.toBytes := by
  have hvalue : Bytes.ofBigEndian address.toBytes = address.value.toNat := by
    have hlt := address.value.isLt
    rw [toBytes, Bytes.ofBigEndian_toBigEndian, show 256 ^ 20 = 2 ^ 160 by decide, Nat.mod_eq_of_lt hlt]
  have hoctets : (ofPairs digits).length = address.toBytes.length := by
    rw [Hex.length_ofPairs, hlength, length_toBytes]
  rw [← Hex.ofBigEndian_ofPairs (by omega) h, ← hvalue]
  exact ⟨Bytes.ofBigEndian_inj hoctets, congrArg Bytes.ofBigEndian⟩

theorem isSpelledBy_withZeros_iff (h : isHexText digits = true) :
    address.IsSpelledBy (withZeros digits) ↔ digits.length = 40 ∧ ofPairs digits = address.toBytes := by
  have hdigits := Hex.isHexDigit_of_mem_withZeros h
  have hlength : (withZeros digits).length = digits.length := List.length_map _
  rw [← Hex.ofPairs_withZeros, ← hlength]
  constructor
  · rintro ⟨hforty, -, hnumber⟩
    exact ⟨hforty, (number_eq_iff hforty hdigits).mp hnumber⟩
  · rintro ⟨hforty, hoctets⟩
    exact ⟨hforty, hdigits, (number_eq_iff hforty hdigits).mpr hoctets⟩

/-- Twenty octets of hex text are read, in which plus signs count as zeros. -/
theorem parseAnyCase_eq_ok_iff :
    parseAnyCase text = .ok (address, digits) ↔
      digits = after0x text.toList ∧ isHexText digits = true ∧ address.IsSpelledBy (withZeros digits) := by
  unfold parseAnyCase
  rw [guard_eq_ok_iff, Decidable.not_not]
  simp only [bind_eq_ok_iff, ofBytes_eq_ok_iff, pure_eq_ok_iff, Prod.mk.injEq, Hex.decode_ofList_eq_ok_iff]
  constructor
  · rintro ⟨hsize, bytes, hread, _, rfl, rfl, rfl⟩
    rcases hread with ⟨htext, hoctets⟩ | ⟨rest, hrest, htext, hoctets⟩
    · rw [Hex.octetCount_of_isHexText htext] at hsize
      exact ⟨rfl, htext, (isSpelledBy_withZeros_iff htext).mpr ⟨hsize, hoctets⟩⟩
    · -- behind a second `0x` there is room for nineteen octets
      have hcount : Text.octetCount (String.ofList ('0' :: 'x' :: rest)) = 2 + rest.length := by
        rw [Text.octetCount_after0x, Hex.octetCount_of_isHexText htext]
      have hlength := congrArg List.length hoctets
      rw [hrest, hcount] at hsize
      rw [Hex.length_ofPairs, length_toBytes] at hlength
      omega
  · rintro ⟨rfl, htext, hspelled⟩
    obtain ⟨hlength, hoctets⟩ := (isSpelledBy_withZeros_iff htext).mp hspelled
    rw [Hex.octetCount_of_isHexText htext]
    exact ⟨hlength, address.toBytes, .inl ⟨htext, hoctets⟩, address, rfl, rfl, rfl⟩

theorem isCased_iff : address.IsCased digits ↔ ¬ (isMixedCase digits = true ∧ address.checksumDigits ≠ digits) := by
  have hnone : ∀ test : Char → Bool, (∀ c ∈ digits, test c = false) ↔ digits.any test = false := by
    intro test
    rw [List.any_eq_false]
    simp only [Bool.not_eq_true]
  unfold isMixedCase IsCased
  rw [hnone, hnone, @eq_comm _ digits]
  cases digits.any Char.isLower <;> cases digits.any Char.isUpper <;> simp

theorem parse_eq_ok_iff :
    parse text = .ok address ↔
      isHexText (after0x text.toList) = true ∧ address.IsSpelledBy (withZeros (after0x text.toList)) ∧
        address.IsCased (after0x text.toList) := by
  unfold parse
  rw [bind_eq_ok_iff]
  constructor
  · rintro ⟨⟨read, digits⟩, hread, hcase⟩
    obtain ⟨hcased, heq⟩ := guard_eq_ok_iff.mp hcase
    obtain rfl : read = address := pure_eq_ok_iff.mp heq
    obtain ⟨rfl, htext, hspelled⟩ := parseAnyCase_eq_ok_iff.mp hread
    exact ⟨htext, hspelled, isCased_iff.mpr hcased⟩
  · rintro ⟨htext, hspelled, hcased⟩
    exact ⟨_, parseAnyCase_eq_ok_iff.mpr ⟨rfl, htext, hspelled⟩,
      guard_eq_ok_iff.mpr ⟨isCased_iff.mp hcased, pure_eq_ok_iff.mpr rfl⟩⟩

theorem mem_after0x_iff : '+' ∈ after0x text.toList ↔ '+' ∈ text.toList := by
  unfold after0x
  split <;> rename_i hchars <;> simp [hchars]

/-- **An accepted text is that of an address exactly if there is no plus sign in it**, and every text of an address
is accepted. Where there are signs, they stand for zeros. -/
theorem texts_without_signs_are_those_of_addresses (text : String) (address : Address) :
    (parse text = .ok address ↔
      isHexText (after0x text.toList) = true ∧ address.IsSpelledBy (withZeros (after0x text.toList)) ∧
        address.IsCased (after0x text.toList)) ∧
    (address.IsSpelledBy (after0x text.toList) ∧ address.IsCased (after0x text.toList) ↔
      parse text = .ok address ∧ '+' ∉ text.toList) ∧
    parse address.checksum = .ok address := by
  refine ⟨parse_eq_ok_iff, ?_, parse_checksum address⟩
  rw [parse_eq_ok_iff, ← mem_after0x_iff]
  constructor
  · rintro ⟨hspelled, hcased⟩
    obtain ⟨htext, hplus⟩ := Hex.forall_isHexDigit_iff.mp hspelled.isHexDigit
    rw [Hex.withZeros_of_not_mem hplus]
    exact ⟨⟨htext, hspelled, hcased⟩, hplus⟩
  · rintro ⟨⟨-, hspelled, hcased⟩, hplus⟩
    rw [Hex.withZeros_of_not_mem hplus] at hspelled
    exact ⟨hspelled, hcased⟩

/-- The address whose octets are all 15. -/
def fifteens : Address :=
  ⟨0x0f0f0f0f0f0f0f0f0f0f0f0f0f0f0f0f0f0f0f0f⟩

/-- Signs in front of single digits are accepted, though the text is not that of any address. -/
theorem signs_are_accepted :
    parse "+f+f+f+f+f+f+f+f+f+f+f+f+f+f+f+f+f+f+f+f" = .ok fifteens ∧
      ¬ ∃ address : Address, address.IsSpelledBy (after0x "+f+f+f+f+f+f+f+f+f+f+f+f+f+f+f+f+f+f+f+f".toList) := by
  constructor
  · have hspelled : fifteens.IsSpelledBy (withZeros "+f+f+f+f+f+f+f+f+f+f+f+f+f+f+f+f+f+f+f+f".toList) :=
      ⟨rfl, List.all_eq_true.mp (by decide), by decide⟩
    have hcased : fifteens.IsCased "+f+f+f+f+f+f+f+f+f+f+f+f+f+f+f+f+f+f+f+f".toList := by
      rw [isCased_iff]
      exact fun h => absurd h.1 (by decide)
    exact parse_eq_ok_iff.mpr ⟨by decide, hspelled, hcased⟩
  · rintro ⟨address, hspelled⟩
    have hplus := hspelled.isHexDigit '+' (by decide)
    cases hplus

end Address
end EthWire
