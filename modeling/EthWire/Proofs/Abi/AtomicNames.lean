/-
# The texts of atomic types hold no bracket

A type text is a name, a tuple or an array, and what it is read as tells which: only an array has a bracket
outside of parentheses, and it is read as an array type (`Abi.Kind.not_isAtomic_of_withSuffix`). So the text
of a type whose values are single words is a name, and names consist of small letters and numerals
(`Abi.Kind.isNameChar_of_ofName?`), so no bracket stands in it (`Abi.Kind.not_mem_of_parse`).

Key definitions: `Abi.Kind.isAtomic`, `Abi.Kind.isNameChar`, `Abi.Kind.IsName`.
Key theorems: `Abi.Kind.isNameChar_of_ofName?`, `Abi.Kind.not_mem_of_parse`.
-/
import EthWire.Abi.KindReader
import EthWire.Proofs.Outcome
import EthWire.Proofs.Text.Basic

namespace EthWire

/-! ### Numerals -/

namespace Numeral

variable {base : Nat}

theorem digitValue?_of_readMore? {value n : Nat} {digits : List Char} (h : readMore? base value digits = some n) :
    ∀ c ∈ digits, (digitValue? base c).isSome := by
  induction digits generalizing value with
  | nil => simp
  | cons c rest ih =>
    rw [readMore?] at h
    split at h
    · rename_i d hd
      exact List.forall_mem_cons.mpr ⟨by rw [hd]; rfl, ih h⟩
    · cases h

theorem digitValue?_of_readDigits? {n : Nat} {digits : List Char} (h : readDigits? base digits = some n) :
    ∀ c ∈ digits, (digitValue? base c).isSome := by
  cases digits with
  | nil => simp
  | cons c rest => exact digitValue?_of_readMore? h

theorem toNat_of_digitValue? {c : Char} (h : (digitValue? 10 c).isSome) : 48 ≤ c.toNat ∧ c.toNat ≤ 57 := by
  refine Decidable.byContradiction fun hne => ?_
  have hnone : digitValue? 10 c = none := by
    rw [digitValue?]
    refine if_neg ?_
    rw [if_neg hne]
    split
    · omega
    · split <;> omega
  rw [hnone] at h
  cases h

theorem digit_or_plus_of_read? {n : Nat} {text : List Char} (h : read? base text = some n) :
    ∀ c ∈ text, c = '+' ∨ (digitValue? base c).isSome := by
  unfold read? at h
  split at h
  · exact List.forall_mem_cons.mpr ⟨.inl rfl, fun c hc => .inr (digitValue?_of_readDigits? h c hc)⟩
  · exact fun c hc => .inr (digitValue?_of_readDigits? h c hc)

end Numeral

namespace Abi
namespace Kind

/-- The types whose values are single words: integers, addresses, booleans and octets of a fixed size. -/
def isAtomic : Kind → Bool
  | .uint _ | .int _ | .address | .bool | .fixedBytes _ => true
  | .bytes | .string | .array _ | .fixedArray _ _ | .tuple _ => false

/-! ### Arrays -/

theorem ne_nil_of_suffixesFrom? {text : List Char} {size : List Char} {lengths : List (Option Nat)}
    (h : suffixesFrom? (some size) text = some lengths) : lengths ≠ [] := by
  induction text generalizing size lengths with
  | nil => cases h
  | cons c rest ih =>
    rw [suffixesFrom?] at h
    split at h
    · split at h
      · obtain ⟨others, -, rfl⟩ := Option.map_eq_some_iff.mp h
        exact List.cons_ne_nil _ _
      · simp only [Option.bind_eq_bind, Option.bind_eq_some_iff, Option.some.injEq] at h
        obtain ⟨_, -, _, -, rfl⟩ := h
        exact List.cons_ne_nil _ _
    · exact ih h

/-- A text with a bracket in it is an array suffix at least. -/
theorem ne_nil_of_suffixes? {text : List Char} {lengths : List (Option Nat)} (hmem : '[' ∈ text)
    (h : suffixes? text = some lengths) : lengths ≠ [] := by
  obtain ⟨c, rest, htrim⟩ := List.exists_cons_of_ne_nil (List.ne_nil_of_mem (Text.mem_trim (by decide) hmem))
  rw [suffixes?, htrim, suffixesFrom?] at h
  split at h
  · exact ne_nil_of_suffixesFrom? h
  · cases h

theorem mem_of_cutLastBracket? {text front suffix : List Char} (h : cutLastBracket? text = some (front, suffix)) :
    '[' ∈ suffix := by
  induction text generalizing front with
  | nil => cases h
  | cons c rest ih =>
    rw [cutLastBracket?] at h
    split at h
    · rename_i before behind hcut
      obtain ⟨-, rfl⟩ := Prod.mk.inj (Option.some.inj h)
      exact ih hcut
    · split at h
      · rename_i hbracket
        obtain ⟨-, rfl⟩ := Prod.mk.inj (Option.some.inj h)
        exact hbracket ▸ List.mem_cons_self
      · cases h

/-- What stands in front of an array suffix is the type of the elements only. -/
theorem not_isAtomic_of_withSuffix {elem kind : Kind} {suffix : List Char} (hmem : '[' ∈ suffix)
    (h : elem.withSuffix suffix = .ok kind) : kind.isAtomic = false := by
  rw [withSuffix] at h
  split at h
  · rename_i lengths hlengths
    obtain rfl := Except.ok.inj h
    rw [← List.dropLast_concat_getLast (ne_nil_of_suffixes? hmem hlengths), List.foldl_append]
    simp only [List.foldl_cons, List.foldl_nil]
    cases lengths.getLast _ <;> rfl
  · cases h

/-! ### Names -/

/-- The characters of names: small letters, digits, and the plus sign that a numeral may have. -/
def isNameChar (c : Char) : Bool :=
  (97 ≤ c.toNat && c.toNat ≤ 122) || c == '+' || (Numeral.digitValue? 10 c).isSome

theorem isBlank_of_isNameChar {c : Char} (h : isNameChar c = true) : Text.isBlank c = false := by
  simp only [isNameChar, Bool.or_eq_true, Bool.and_eq_true, decide_eq_true_eq, beq_iff_eq] at h
  rcases h with (hletter | rfl) | hdigit
  · simp only [Text.isBlank, Bool.or_eq_false_iff, Bool.and_eq_false_iff, decide_eq_false_iff_not, beq_eq_false_iff_ne]
    omega
  · rfl
  · have hrange := Numeral.toNat_of_digitValue? hdigit
    simp only [Text.isBlank, Bool.or_eq_false_iff, Bool.and_eq_false_iff, decide_eq_false_iff_not, beq_eq_false_iff_ne]
    omega

theorem isNameChar_of_readCount? {text : List Char} {n : Nat} (h : Numeral.readCount? text = some n) :
    ∀ c ∈ text, isNameChar c = true := by
  intro c hc
  obtain ⟨hread, -⟩ := Option.filter_eq_some_iff.mp h
  rcases Numeral.digit_or_plus_of_read? hread c hc with rfl | hdigit
  · rfl
  · rw [isNameChar, hdigit, Bool.or_true]

theorem isNameChar_of_width? {valid : Nat → Bool} {digits : List Char} {n : Nat}
    (h : width? valid digits = some n) : ∀ c ∈ digits, isNameChar c = true := by
  rw [width?] at h
  split at h
  · cases h
  · exact isNameChar_of_readCount? (Option.filter_eq_some_iff.mp h).1

theorem eq_append_of_afterFront? {front text rest : List Char} (h : Text.afterFront? front text = some rest) :
    text = front ++ rest := by
  rw [Text.afterFront?] at h
  split at h
  · rename_i hprefix
    obtain ⟨behind, rfl⟩ := List.isPrefixOf_iff_prefix.mp hprefix
    obtain rfl := Option.some.inj h
    rw [List.drop_left]
  · cases h

theorem isNameChar_of_bitWidth? {digits : List Char} {n : Nat} (h : bitWidth? digits = some n) :
    ∀ c ∈ digits, isNameChar c = true := by
  rw [bitWidth?] at h
  split at h
  · rename_i hempty
    rw [List.isEmpty_iff.mp hempty]
    simp
  · exact isNameChar_of_width? h

/-- The elementary names: words, and words with a width behind them. -/
inductive IsName : List Char → Kind → Prop where
  | address : IsName "address".toList .address
  | bool : IsName "bool".toList .bool
  | string : IsName "string".toList .string
  | bytes : IsName "bytes".toList .bytes
  | function : IsName "function".toList (.fixedBytes 24)
  | uint {digits : List Char} {bits : Nat} (width : bitWidth? digits = some bits) :
      IsName ("uint".toList ++ digits) (.uint bits)
  | int {digits : List Char} {bits : Nat} (width : bitWidth? digits = some bits) :
      IsName ("int".toList ++ digits) (.int bits)
  | fixedBytes {digits : List Char} {size : Nat} (width : byteWidth? digits = some size) :
      IsName ("bytes".toList ++ digits) (.fixedBytes size)

theorem isName_of_ofName? {name : List Char} {kind : Kind} (h : ofName? name = some kind) : IsName name kind := by
  rw [ofName?] at h
  repeat
    split at h
    · rename_i hname
      obtain rfl := Option.some.inj h
      rw [hname]
      constructor
  split at h
  · rename_i digits hfront
    obtain ⟨bits, hbits, rfl⟩ := Option.map_eq_some_iff.mp h
    rw [eq_append_of_afterFront? hfront]
    exact .uint hbits
  · split at h
    · rename_i digits hfront
      obtain ⟨bits, hbits, rfl⟩ := Option.map_eq_some_iff.mp h
      rw [eq_append_of_afterFront? hfront]
      exact .int hbits
    · split at h
      · rename_i digits hfront
        obtain ⟨size, hsize, rfl⟩ := Option.map_eq_some_iff.mp h
        rw [eq_append_of_afterFront? hfront]
        exact .fixedBytes hsize
      · cases h

theorem ofName?_uint (digits : List Char) : ofName? ("uint".toList ++ digits) = (bitWidth? digits).map .uint := by
  simp [ofName?, Text.afterFront?]

theorem ofName?_int (digits : List Char) : ofName? ("int".toList ++ digits) = (bitWidth? digits).map .int := by
  simp [ofName?, Text.afterFront?]

theorem ofName?_bytes {digits : List Char} (h : digits ≠ []) :
    ofName? ("bytes".toList ++ digits) = (byteWidth? digits).map .fixedBytes := by
  simp [ofName?, Text.afterFront?, h]

/-- Names consist of small letters and numerals. -/
theorem isNameChar_of_ofName? {name : List Char} {kind : Kind} (h : ofName? name = some kind) :
    ∀ c ∈ name, isNameChar c = true := by
  have hword : ∀ word : List Char, word.all isNameChar = true → ∀ c ∈ word, isNameChar c = true :=
    fun _ => List.all_eq_true.mp
  cases isName_of_ofName? h with
  | address => exact hword _ (by decide)
  | bool => exact hword _ (by decide)
  | string => exact hword _ (by decide)
  | bytes => exact hword _ (by decide)
  | function => exact hword _ (by decide)
  | uint width => exact List.forall_mem_append.mpr ⟨hword _ (by decide), isNameChar_of_bitWidth? width⟩
  | int width => exact List.forall_mem_append.mpr ⟨hword _ (by decide), isNameChar_of_bitWidth? width⟩
  | fixedBytes width => exact List.forall_mem_append.mpr ⟨hword _ (by decide), isNameChar_of_width? width⟩

theorem not_mem_of_ofName? {name : List Char} {kind : Kind} {c : Char} (hc : isNameChar c = false)
    (h : ofName? name = some kind) : c ∉ name := by
  intro hmem
  rw [isNameChar_of_ofName? h c hmem] at hc
  cases hc

/-- The text of an atomic type holds no bracket. -/
theorem not_mem_of_parse {text : List Char} {kind : Kind} (hatomic : kind.isAtomic = true)
    (h : parse text = .ok kind) : '[' ∉ text := by
  rw [parse] at h
  simp only at h
  split at h
  · -- an array
    split at h
    · cases h
    · rename_i front suffix hcut
      obtain ⟨elem, -, hsuffix⟩ := bind_eq_ok_iff.mp h
      rw [not_isAtomic_of_withSuffix (mem_of_cutLastBracket? hcut) hsuffix] at hatomic
      cases hatomic
  · split at h
    · -- a tuple
      split at h
      · split at h
        · obtain rfl := Except.ok.inj h
          cases hatomic
        · split at h
          · obtain ⟨members, -, hkind⟩ := bind_eq_ok_iff.mp h
            obtain rfl := pure_eq_ok_iff.mp hkind
            cases hatomic
          · cases h
      · cases h
    · split at h
      · rename_i hname
        exact fun hmem => not_mem_of_ofName? rfl hname (Text.mem_trim (by decide) hmem)
      · cases h

end Kind
end Abi
end EthWire
