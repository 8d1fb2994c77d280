/-
# An address is read again from its checksum text

The checksum of an address raises some of its digits to upper case and changes nothing else: the digits stay
digits, as many as before and of the same values (`Address.map_checksumDigits`). So they are read as the
octets of the address, and the case test finds the case it asks for.

Key theorems: `Address.map_checksumDigits`, `Address.parse_checksum`.
-/
import EthWire.Address.Basic
import EthWire.Proofs.Text.Hex

namespace EthWire
namespace Address

open Numeral (isHexDigit)

theorem map_zipWith_toUpper {γ : Type} {view : Char → γ} : ∀ {digits : List Char} {nibbles : List Nat},
    digits.length ≤ nibbles.length → (∀ c ∈ digits, view c.toUpper = view c) →
    (List.zipWith (fun c nibble => if 8 ≤ nibble then c.toUpper else c) digits nibbles).map view = digits.map view
  | [], _, _, _ => by rw [List.zipWith_nil_left]
  | c :: digits, nibble :: nibbles, hlength, h => by
    obtain ⟨hc, hdigits⟩ := List.forall_mem_cons.mp h
    have hfirst : view (if 8 ≤ nibble then c.toUpper else c) = view c := by
      split
      · exact hc
      · rfl
    rw [List.zipWith_cons_cons, List.map_cons, List.map_cons, hfirst,
      map_zipWith_toUpper (Nat.le_of_succ_le_succ hlength) hdigits]

theorem length_nibbles : ∀ digest : Bytes,
    (digest.flatMap fun b => [b.toNat / 16, b.toNat % 16]).length = 2 * digest.length
  | [] => rfl
  | b :: digest => by
    rw [List.flatMap_cons, List.length_append, length_nibbles digest, List.length_cons, List.length_cons,
      List.length_cons, List.length_nil]
    omega

theorem map_withCase {γ : Type} {view : Char → γ} {digits : List Char} {digest : Bytes}
    (hlength : digits.length ≤ 2 * digest.length) (h : ∀ c ∈ digits, view c.toUpper = view c) :
    (withCase digits digest).map view = digits.map view :=
  map_zipWith_toUpper (length_nibbles digest ▸ hlength) h

variable (address : Address)

theorem length_digits : address.digits.length = 40 := by
  rw [digits, Hex.length_encode, length_toBytes]

/-- What upper case does not change in any digit, the checksum does not change. -/
theorem map_checksumDigits {γ : Type} {view : Char → γ} (h : ∀ c, isHexDigit c = true → view c.toUpper = view c) :
    address.checksumDigits.map view = address.digits.map view := by
  refine map_withCase ?_ fun c hc => h c (Hex.isHexDigit_of_mem_encode hc)
  rw [length_digits, Word.length_toBytes]
  decide

theorem isHexDigit_of_mem_checksumDigits {c : Char} (h : c ∈ address.checksumDigits) : isHexDigit c = true := by
  have hview : ∀ c, isHexDigit c = true → isHexDigit c.toUpper = isHexDigit c := by
    intro c hc
    rw [Hex.isHexDigit_toUpper hc, hc]
  have hmem : isHexDigit c ∈ address.digits.map isHexDigit :=
    map_checksumDigits address hview ▸ List.mem_map_of_mem h
  obtain ⟨d, hd, hsame⟩ := List.mem_map.mp hmem
  rw [← hsame]
  exact Hex.isHexDigit_of_mem_encode hd

theorem ofPairs_checksumDigits : Hex.ofPairs address.checksumDigits = address.toBytes := by
  have hvalues := map_checksumDigits address fun c hc => Hex.digitValue_toUpper hc
  rw [Hex.ofPairs_congr hvalues, digits, Hex.ofPairs_encode]

/-- An address is read again from its checksum text. -/
theorem parse_checksum : parse address.checksum = .ok address := by
  have hhex : ∀ c ∈ address.checksumDigits, isHexDigit c = true := fun _ => isHexDigit_of_mem_checksumDigits address
  have hlength : address.checksumDigits.length = 40 := by
    have hunits : address.checksumDigits.map (fun _ => ()) = address.digits.map fun _ => () :=
      map_checksumDigits address fun _ _ => rfl
    have hsame := congrArg List.length hunits
    rw [List.length_map, List.length_map, length_digits] at hsame
    exact hsame
  have hdigits : Text.after0x address.checksum.toList = address.checksumDigits := by
    simp [checksum, Text.after0x]
  have hread : parseAnyCase address.checksum = .ok (address, address.checksumDigits) := by
    rw [parseAnyCase, hdigits]
    simp only [Hex.octetCount_of_isHexDigit hhex, hlength, Hex.decode_ofList hhex, ofPairs_checksumDigits]
    exact guard_eq_ok_iff.mpr ⟨not_not_intro rfl, bind_eq_ok_iff.mpr
      ⟨address.toBytes, rfl, bind_eq_ok_iff.mpr ⟨address, ofBytes_eq_ok_iff.mpr rfl, rfl⟩⟩⟩
  rw [parse, hread]
  simp [bind, Except.bind, pure, Except.pure]

end Address
end EthWire
