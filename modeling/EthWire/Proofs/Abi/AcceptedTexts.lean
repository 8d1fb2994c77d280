/-
# What stands in an accepted type text

Of which characters a type text is built can be said without the type that it names: words, numerals as widths
and as lengths, parentheses, commas, brackets and blanks (`Abi.IsTypeText`). What counts as a numeral is left
open here. The numerals of the reader may have a plus sign in front, so the texts that it accepts are those
in which every width and every length is a run of digits or such a sign with one behind it
(`Abi.isTypeText_of_spells`). No other character gets in, and a plus sign can stand at no other place. Hence an
accepted text has digits only in its widths and lengths exactly if no plus sign is in it.

Key definitions: `Abi.IsTypeText`, `Numeral.IsDecimal`, `Numeral.IsSigned`.
Key theorems: `Numeral.isSigned_of_read?`, `Abi.isTypeText_of_spells`,
`Abi.accepted_text_has_plain_numerals_iff`.
-/
import EthWire.Proofs.Abi.TypeGrammar

namespace EthWire

/-! ### Numerals -/

namespace Numeral

/-- A run of decimal digits. -/
def IsDecimal (text : List Char) : Prop :=
  text ≠ [] ∧ ∀ c ∈ text, c.isDigit = true

/-- A run of decimal digits, with a plus sign in front or not. -/
def IsSigned (text : List Char) : Prop :=
  ∃ digits, IsDecimal digits ∧ (text = digits ∨ text = '+' :: digits)

theorem IsDecimal.not_mem_plus {text : List Char} (h : IsDecimal text) : '+' ∉ text := by
  intro hplus
  cases h.2 '+' hplus

theorem IsSigned.isDecimal {text : List Char} (h : IsSigned text) (hplus : '+' ∉ text) : IsDecimal text := by
  obtain ⟨digits, hdigits, rfl | rfl⟩ := h
  · exact hdigits
  · exact absurd List.mem_cons_self hplus

theorem isDecimal_of_readDigits? {n : Nat} {digits : List Char} (h : readDigits? 10 digits = some n) :
    IsDecimal digits := by
  constructor
  · rintro rfl
    cases h
  · intro c hc
    have hrange := toNat_of_digitValue? (digitValue?_of_readDigits? h c hc)
    simpa [Char.isDigit, UInt32.le_iff_toNat_le] using hrange

/-- A numeral is a run of digits, perhaps with a plus sign in front. -/
theorem isSigned_of_read? {n : Nat} {text : List Char} (h : read? 10 text = some n) : IsSigned text := by
  unfold read? at h
  split at h
  · rename_i digits
    exact ⟨digits, isDecimal_of_readDigits? h, .inr rfl⟩
  · exact ⟨text, isDecimal_of_readDigits? h, .inl rfl⟩

theorem isSigned_of_readCount? {n : Nat} {text : List Char} (h : readCount? text = some n) : IsSigned text :=
  isSigned_of_read? (Option.filter_eq_some_iff.mp h).1

end Numeral

namespace Abi

open Text
open Numeral (IsDecimal IsSigned)

/-! ### The texts without their types -/

/-- A text is built from the words of types, numerals, lists in parentheses and suffixes in brackets, with blanks
around types and lengths. -/
inductive IsTypeText (numeral : List Char → Prop) : List Char → Prop where
  | word {text : List Char}
      (mem : text ∈ ["address", "bool", "string", "bytes", "function", "uint", "int"].map String.toList) :
      IsTypeText numeral text
  | width {front digits : List Char} (mem : front ∈ ["uint", "int", "bytes"].map String.toList)
      (width_numeral : numeral digits) : IsTypeText numeral (front ++ digits)
  | tuple {keyword inside : List Char} {pieces : List (List Char)}
      (keyword_eq : keyword = [] ∨ keyword = "tuple".toList) (list : Lists inside pieces)
      (each : ∀ piece ∈ pieces, IsTypeText numeral piece) :
      IsTypeText numeral (keyword ++ '(' :: (inside ++ [')']))
  | array {text blanks : List Char} (elem : IsTypeText numeral text) (size_blank : IsBlanks blanks) :
      IsTypeText numeral (text ++ '[' :: (blanks ++ [']']))
  | fixedArray {text front digits behind : List Char} (elem : IsTypeText numeral text) (front_blank : IsBlanks front)
      (behind_blank : IsBlanks behind) (length_numeral : numeral digits) :
      IsTypeText numeral (text ++ '[' :: (front ++ (digits ++ behind) ++ [']']))
  | padded {front text behind : List Char} (front_blank : IsBlanks front) (behind_blank : IsBlanks behind)
      (inside : IsTypeText numeral text) : IsTypeText numeral (front ++ (text ++ behind))

theorem mem_intercalate_iff {c : Char} (hc : c ≠ ',') : ∀ {pieces : List (List Char)},
    c ∈ [','].intercalate pieces ↔ ∃ piece ∈ pieces, c ∈ piece
  | [] => by simp
  | [piece] => by simp
  | piece :: next :: pieces => by
    rw [List.intercalate_cons_cons, List.mem_append, List.mem_append, mem_intercalate_iff hc]
    simp [hc]

theorem Lists.mem_iff {c : Char} {inside : List Char} {pieces : List (List Char)} (h : Lists inside pieces)
    (hcomma : c ≠ ',') (hblank : isBlank c = false) : c ∈ inside ↔ ∃ piece ∈ pieces, c ∈ piece := by
  rcases h with ⟨rfl, hblanks⟩ | ⟨-, rfl⟩
  · refine iff_of_false (fun hc => ?_) (by simp)
    rw [hblanks c hc] at hblank
    cases hblank
  · exact mem_intercalate_iff hcomma

namespace IsTypeText

/-- With plain numerals no plus sign stands anywhere. -/
theorem not_mem_plus {text : List Char} (h : IsTypeText IsDecimal text) : '+' ∉ text := by
  have hblanks : ∀ {blanks : List Char}, IsBlanks blanks → '+' ∉ blanks := by
    intro blanks hblank hmem
    cases hblank '+' hmem
  have hwords : (["address", "bool", "string", "bytes", "function", "uint", "int"].map String.toList).all
      (fun word => !word.contains '+') = true := by decide
  have hfronts : (["uint", "int", "bytes"].map String.toList).all (fun word => !word.contains '+') = true := by decide
  induction h with
  | word mem => simpa using List.all_eq_true.mp hwords _ mem
  | width mem width_numeral =>
    have hfront := List.all_eq_true.mp hfronts _ mem
    rw [List.mem_append, not_or]
    exact ⟨by simpa using hfront, width_numeral.not_mem_plus⟩
  | @tuple keyword inside pieces keyword_eq list each ih =>
    have hinside : '+' ∉ inside := by
      rw [list.mem_iff (by decide) rfl]
      rintro ⟨piece, hpiece, hmem⟩
      exact ih piece hpiece hmem
    have hkeyword : '+' ∉ keyword := by
      rcases keyword_eq with rfl | rfl <;> decide
    simp [hinside, hkeyword]
  | array _ size_blank ih => simp [ih, hblanks size_blank]
  | fixedArray _ front_blank behind_blank length_numeral ih =>
    simp [ih, hblanks front_blank, hblanks behind_blank, length_numeral.not_mem_plus]
  | padded front_blank behind_blank _ ih => simp [ih, hblanks front_blank, hblanks behind_blank]

/-- Without a plus sign in the text its numerals are plain. -/
theorem plain {text : List Char} (h : IsTypeText IsSigned text) (hplus : '+' ∉ text) : IsTypeText IsDecimal text := by
  induction h with
  | word mem => exact .word mem
  | width mem width_numeral =>
    apply IsTypeText.width mem
    exact width_numeral.isDecimal fun hmem => hplus (List.mem_append_right _ hmem)
  | @tuple keyword inside pieces keyword_eq list each ih =>
    apply IsTypeText.tuple keyword_eq list
    intro piece hpiece
    apply ih piece hpiece
    intro hmem
    have hinside : '+' ∈ inside := (list.mem_iff (by decide) rfl).mpr ⟨piece, hpiece, hmem⟩
    exact hplus (by simp [hinside])
  | array _ size_blank ih => exact .array (ih fun hmem => hplus (List.mem_append_left _ hmem)) size_blank
  | fixedArray _ front_blank behind_blank length_numeral ih =>
    apply IsTypeText.fixedArray (ih fun hmem => hplus (List.mem_append_left _ hmem)) front_blank behind_blank
    exact length_numeral.isDecimal fun hmem => hplus (by simp [hmem])
  | padded front_blank behind_blank _ ih =>
    exact .padded front_blank behind_blank (ih fun hmem => hplus (by simp [hmem]))

end IsTypeText

/-! ### What is accepted -/

theorem isSigned_of_width? {valid : Nat → Bool} {digits : List Char} {width : Nat}
    (h : Kind.width? valid digits = some width) : IsSigned digits := by
  rw [Kind.width?] at h
  split at h
  · cases h
  · exact Numeral.isSigned_of_readCount? (Option.filter_eq_some_iff.mp h).1

theorem eq_nil_or_isSigned_of_bitWidth? {digits : List Char} {bits : Nat} (h : Kind.bitWidth? digits = some bits) :
    digits = [] ∨ IsSigned digits := by
  rw [Kind.bitWidth?] at h
  split at h
  · rename_i hempty
    exact .inl (List.isEmpty_iff.mp hempty)
  · exact .inr (isSigned_of_width? h)

theorem isTypeText_of_isName {text : List Char} {kind : Kind} (h : Kind.IsName text kind) :
    IsTypeText IsSigned text := by
  cases h with
  | address => exact .word (by decide)
  | bool => exact .word (by decide)
  | string => exact .word (by decide)
  | bytes => exact .word (by decide)
  | function => exact .word (by decide)
  | @uint digits bits width =>
    rcases eq_nil_or_isSigned_of_bitWidth? width with rfl | hsigned
    · exact .word (by decide)
    · exact .width (by decide) hsigned
  | @int digits bits width =>
    rcases eq_nil_or_isSigned_of_bitWidth? width with rfl | hsigned
    · exact .word (by decide)
    · exact .width (by decide) hsigned
  | fixedBytes width => exact .width (by decide) (isSigned_of_width? width)

/-- A text that spells a type is built of words, numerals, lists and suffixes. -/
theorem isTypeText_of_spells {text : List Char} {kind : Kind} (h : Spells text kind) : IsTypeText IsSigned text := by
  induction h with
  | name named => exact isTypeText_of_isName (Kind.isName_of_ofName? named)
  | tuple keyword_eq list _ ih => exact .tuple keyword_eq list (List.forall_mem_map.mpr ih)
  | @array text size elem length _ size_eq ih =>
    rw [sizeOf?] at size_eq
    split at size_eq
    · rename_i hempty
      exact .array ih (trim_eq_nil_iff.mp (List.isEmpty_iff.mp hempty))
    · obtain ⟨n, hn, -⟩ := Option.map_eq_some_iff.mp size_eq
      obtain ⟨front, behind, hfront, hbehind, hsize⟩ := exists_padding size
      rw [hsize]
      exact .fixedArray ih hfront hbehind (Numeral.isSigned_of_readCount? hn)
  | padded front_blank behind_blank _ ih => exact .padded front_blank behind_blank ih

/-- **An accepted text is built of words, numerals, lists and suffixes**, and its widths and lengths are digits
only exactly if there is no plus sign in it. -/
theorem accepted_text_has_plain_numerals_iff {text : List Char} {kind : Kind} (h : Kind.parse text = .ok kind) :
    IsTypeText IsSigned text ∧ (IsTypeText IsDecimal text ↔ '+' ∉ text) := by
  have hsigned := isTypeText_of_spells (spells_of_parse h)
  exact ⟨hsigned, IsTypeText.not_mem_plus, hsigned.plain⟩

/-- A text with a width, a length and blanks around it. -/
theorem padded_length_is_plain :
    Kind.parse "bytes4[ 2 ]".toList = .ok (.fixedArray (.fixedBytes 4) 2) ∧
      IsTypeText IsDecimal "bytes4[ 2 ]".toList := by
  have hspells : Spells "bytes4[ 2 ]".toList (.fixedArray (.fixedBytes 4) 2) :=
    .array (.name (rfl : Kind.ofName? "bytes4".toList = some (.fixedBytes 4)))
      (rfl : sizeOf? " 2 ".toList = some (some 2))
  have hparsed := hspells.parse_eq
  exact ⟨hparsed, (accepted_text_has_plain_numerals_iff hparsed).2.mpr (by decide)⟩

/-- The width and the length have plus signs, and the text is accepted all the same. -/
theorem plus_signs_are_accepted :
    Kind.parse "uint+8[+1]".toList = .ok (.fixedArray (.uint 8) 1) ∧ ¬ IsTypeText IsDecimal "uint+8[+1]".toList := by
  have hspells : Spells "uint+8[+1]".toList (.fixedArray (.uint 8) 1) :=
    .array (.name (rfl : Kind.ofName? "uint+8".toList = some (.uint 8))) (rfl : sizeOf? "+1".toList = some (some 1))
  exact ⟨hspells.parse_eq, fun hplain => hplain.not_mem_plus (by decide)⟩

end Abi
end EthWire
