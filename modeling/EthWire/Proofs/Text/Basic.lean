/-
# Texts and what they are cut into

The octets of a text determine it, and those of ASCII characters are their codes. Only blanks are trimmed, and
only at the ends. The pieces of a text are those that lists are split into: none has a separator in it.

Key theorems: `Text.octets_injective`, `Text.octets_of_ascii`, `Text.length_octets`, `Text.mem_trim`,
`Text.trim_of_ends`, `Text.splitWhere_eq_splitOnP`, `Text.eq_false_of_mem_splitWhere`.
-/
import EthWire.Text.Basic

namespace EthWire
namespace Text

/-! ### Octets -/

theorem toByteArray_octets (text : String) : (octets text).toByteArray = text.toByteArray :=
  String.utf8Encode_toList

theorem length_octets (text : String) : (octets text).length = octetCount text := by
  rw [← List.size_toByteArray, toByteArray_octets]
  rfl

theorem ofOctets?_octets (text : String) : ofOctets? (octets text) = some text := by
  rw [ofOctets?, toByteArray_octets, String.fromUTF8?, dif_pos text.isValidUTF8]
  rfl

theorem octets_injective {text text' : String} (h : octets text = octets text') : text = text' := by
  have hread := ofOctets?_octets text
  rw [h, ofOctets?_octets, Option.some.injEq] at hread
  exact hread.symm

/-- The octets of ASCII characters are their codes. -/
theorem octets_of_ascii : ∀ {chars : List Char}, (∀ c ∈ chars, c.toNat < 128) →
    octets (String.ofList chars) = chars.map fun c => UInt8.ofNat c.toNat
  | [], _ => rfl
  | c :: chars, h => by
    obtain ⟨hc, hchars⟩ := List.forall_mem_cons.mp h
    have hlater := octets_of_ascii hchars
    have hsize : c.utf8Size = 1 := by
      rw [Char.utf8Size_eq_one_iff, UInt32.le_iff_toNat_le]
      exact Nat.le_of_lt_succ hc
    have hoctet : String.utf8EncodeChar c = [UInt8.ofNat c.toNat] := String.utf8EncodeChar_eq_singleton hsize
    simp only [octets, String.toList_ofList] at hlater ⊢
    rw [List.flatMap_cons, hlater, hoctet, List.map_cons, List.singleton_append]

theorem octetCount_after0x (rest : List Char) :
    octetCount (String.ofList ('0' :: 'x' :: rest)) = 2 + octetCount (String.ofList rest) := by
  have hmark : octets (String.ofList ('0' :: 'x' :: rest)) = [0x30, 0x78] ++ octets (String.ofList rest) := by
    unfold octets
    rw [String.toList_ofList, String.toList_ofList, List.flatMap_cons, List.flatMap_cons, ← List.append_assoc]
    rfl
  rw [← length_octets, ← length_octets, hmark, List.length_append]
  rfl

/-! ### Blanks -/

theorem mem_trim {c : Char} {text : List Char} (hc : isBlank c = false) (h : c ∈ text) : c ∈ trim text := by
  have hkeep : ∀ {chars : List Char}, c ∈ chars → c ∈ chars.dropWhile isBlank := by
    intro chars hmem
    rw [← List.takeWhile_append_dropWhile (p := isBlank) (l := chars)] at hmem
    rcases List.mem_append.mp hmem with hfront | hback
    · rw [List.all_eq_true.mp List.all_takeWhile c hfront] at hc
      cases hc
    · exact hback
  rw [trim, trimEnd, List.mem_reverse]
  exact hkeep (List.mem_reverse.mpr (hkeep h))

theorem dropWhile_isBlank_of_head? {text : List Char} (h : ∀ c, text.head? = some c → isBlank c = false) :
    text.dropWhile isBlank = text := by
  cases text with
  | nil => rfl
  | cons c rest => exact List.dropWhile_cons_of_neg (by simp [h c rfl])

/-- A text without a blank at either end is not trimmed. -/
theorem trim_of_ends {text : List Char} (hhead : ∀ c, text.head? = some c → isBlank c = false)
    (hlast : ∀ c, text.getLast? = some c → isBlank c = false) : trim text = text := by
  rw [trim, trimStart, dropWhile_isBlank_of_head? hhead, trimEnd,
    dropWhile_isBlank_of_head? (by rwa [List.head?_reverse]), List.reverse_reverse]

theorem trim_of_not_isBlank {text : List Char} (h : ∀ c ∈ text, isBlank c = false) : trim text = text :=
  trim_of_ends (fun c hc => h c (List.mem_of_mem_head? hc)) fun c hc => h c (List.mem_of_getLast? hc)

/-! ### Pieces -/

theorem splitWhere_eq_splitOnP (separator : Char → Bool) : ∀ text : List Char,
    splitWhere separator text = text.splitOnP separator
  | [] => rfl
  | c :: text => by
    have hrest := splitWhere_eq_splitOnP separator text
    rw [List.splitOnP_cons_eq_if_modifyHead, ← hrest, splitWhere]
    obtain ⟨piece, pieces, hpieces⟩ := List.exists_cons_of_ne_nil (splitWhere_ne_nil separator text)
    rw [hpieces]
    cases separator c <;> rfl

theorem eq_false_of_mem_splitWhere {separator : Char → Bool} : ∀ {text piece : List Char},
    piece ∈ splitWhere separator text → ∀ c ∈ piece, separator c = false
  | [], piece, h => by
    obtain rfl : piece = [] := List.mem_singleton.mp h
    simp
  | x :: text, piece, h => by
    have ih := fun {piece} => @eq_false_of_mem_splitWhere separator text piece
    obtain ⟨first, pieces, hpieces⟩ := List.exists_cons_of_ne_nil (splitWhere_ne_nil separator text)
    rw [hpieces] at ih
    rw [splitWhere, hpieces] at h
    cases hx : separator x with
    | true =>
      rw [hx] at h
      rcases List.mem_cons.mp h with rfl | hold
      · simp
      · exact ih hold
    | false =>
      rw [hx] at h
      rcases List.mem_cons.mp h with rfl | hold
      · exact List.forall_mem_cons.mpr ⟨hx, ih List.mem_cons_self⟩
      · exact ih (List.mem_cons_of_mem _ hold)

end Text
end EthWire
