/-
# A value that was read is read again from its text

The text of a value is parsed as a tree that means the value, provided that the value was read from some tree
and has no floating point number in it (`Json.readsBack_of_value?`): the text of a floating point number has the
fewest digits that denote it, and reading those rounds more than once. What a value has for having been read is
what reading needs again. Its natural numbers are below 2^64 and its negative ones not below -2^63, its objects
are in order, and it is not too deep: the text of a value nests as deep as the tree it was read from.

Key definitions: `Json.Value.hasFloat`, `Json.ReadsBack`.
Key theorems: `Json.exists_written_number`, `Json.readsBack_of_value?`.
-/
import EthWire.Proofs.Json.Decoders

namespace EthWire
namespace Json

/-! ### Numbers -/

namespace Numeral

theorem appendDigits_eq : ∀ {digits : List Char} {n : Nat}, Nat.ofDigitChars 10 digits n < significandBound →
    appendDigits n digits = (Nat.ofDigitChars 10 digits n, [])
  | [], _, _ => rfl
  | c :: rest, n, h => by
    have hnext : Nat.ofDigitChars 10 (c :: rest) n = Nat.ofDigitChars 10 rest (n * 10 + (c.toNat - 48)) := by
      rw [Nat.ofDigitChars_cons, Nat.mul_comm]
      rfl
    rw [hnext] at h ⊢
    have hgrows : n * 10 + (c.toNat - 48) ≤ Nat.ofDigitChars 10 rest (n * 10 + (c.toNat - 48)) := by
      rw [Nat.ofDigitChars_eq_ofDigitChars_zero]
      exact Nat.le_trans (Nat.le_mul_of_pos_left _ (Nat.pow_pos (by decide))) (Nat.le_add_right _ _)
    rw [appendDigits, if_pos (Nat.lt_of_le_of_lt hgrows h), appendDigits_eq h]

theorem appendDigits_lt : ∀ {digits : List Char} {n : Nat}, n < significandBound →
    (appendDigits n digits).1 < significandBound
  | [], _, h => h
  | c :: rest, n, h => by
    rw [appendDigits]
    split
    · exact appendDigits_lt ‹_›
    · exact h

theorem appendDigits_toDigits {n : Nat} (h : n < significandBound) :
    appendDigits 0 (Nat.toDigits 10 n) = (n, []) := by
  have hdigits : Nat.ofDigitChars 10 (Nat.toDigits 10 n) 0 = n := Nat.ofDigitChars_ten_toDigits
  rw [appendDigits_eq (by rwa [hdigits]), hdigits]

end Numeral

theorem number?_eq (parts : Numeral) : parts.number? =
    if parts.fraction.isEmpty ∧ parts.exponent = none ∧ (Numeral.appendDigits 0 parts.whole).2.isEmpty then
      if !parts.negative then some (.natural (Numeral.appendDigits 0 parts.whole).1)
      else if 0 < (Numeral.appendDigits 0 parts.whole).1 ∧ (Numeral.appendDigits 0 parts.whole).1 ≤ 2 ^ 63 then
        some (.negative (Numeral.appendDigits 0 parts.whole).1)
      else parts.magnitude?.map fun x => .float { x with negative := parts.negative }
    else parts.magnitude?.map fun x => .float { x with negative := parts.negative } := rfl

theorem number?_natural {n : Nat} (h : n < 2 ^ 64) : (integerParts false n).number? = some (.natural n) := by
  rw [number?_eq, integerParts, Numeral.appendDigits_toDigits h]
  rfl

theorem number?_negative {n : Nat} (hpos : 0 < n) (h : n ≤ 2 ^ 63) :
    (integerParts true n).number? = some (.negative n) := by
  rw [number?_eq, integerParts, Numeral.appendDigits_toDigits (Nat.lt_of_le_of_lt h (by decide))]
  show (if 0 < n ∧ n ≤ 2 ^ 63 then some (Number.negative n) else _) = _
  rw [if_pos ⟨hpos, h⟩]

theorem range_of_number? {parts : Numeral} {number : Number} (h : parts.number? = some number) :
    (∃ n, number = .natural n ∧ n < 2 ^ 64) ∨ (∃ n, number = .negative n ∧ 0 < n ∧ n ≤ 2 ^ 63) ∨
      ∃ x, number = .float x := by
  have hbound : (Numeral.appendDigits 0 parts.whole).1 < 2 ^ 64 := Numeral.appendDigits_lt (by decide)
  have hfloat : (parts.magnitude?.map fun x => Number.float { x with negative := parts.negative }) = some number →
      ∃ x, number = .float x := by
    rw [Option.map_eq_some_iff]
    rintro ⟨x, -, rfl⟩
    exact ⟨_, rfl⟩
  rw [number?_eq] at h
  split at h
  · split at h
    · exact .inl ⟨_, (Option.some.inj h).symm, hbound⟩
    split at h
    · rename_i hrange
      exact .inr (.inl ⟨_, (Option.some.inj h).symm, hrange⟩)
    · exact .inr (.inr (hfloat h))
  · exact .inr (.inr (hfloat h))

/-- An integer that was read is read again from its text. -/
theorem exists_written_number {parts : Numeral} {number : Number} (h : parts.number? = some number)
    (hinteger : ∀ x, number ≠ .float x) :
    ∃ written, Writes number.text (.number written) ∧ written.number? = some number := by
  rcases range_of_number? h with ⟨n, rfl, hn⟩ | ⟨n, rfl, hpos, hn⟩ | ⟨x, rfl⟩
  · have hcut := cutsInto_integer false n
    exact ⟨integerParts false n, by simpa [Writes, Number.text, Tree.tokens] using hcut, number?_natural hn⟩
  · have hcut := cutsInto_integer true n
    exact ⟨integerParts true n, by simpa [Writes, Number.text, Tree.tokens] using hcut, number?_negative hpos hn⟩
  · exact absurd rfl (hinteger x)

/-! ### Values -/

mutual

/-- Whether there is a floating point number in a value. -/
def Value.hasFloat : Value → Bool
  | .null => false
  | .bool _ => false
  | .number (.float _) => true
  | .number _ => false
  | .string _ => false
  | .list items => Value.anyFloat items
  | .object members => Value.anyMemberFloat members

/-- Whether there is one in one of the values. -/
def Value.anyFloat : List Value → Bool
  | [] => false
  | value :: rest => value.hasFloat || Value.anyFloat rest

/-- Whether there is one in the value of a member. -/
def Value.anyMemberFloat : List (String × Value) → Bool
  | [] => false
  | (_, value) :: rest => value.hasFloat || Value.anyMemberFloat rest

end

namespace Value

theorem anyFloat_eq_any : ∀ items : List Value, anyFloat items = items.any hasFloat
  | [] => rfl
  | value :: rest => by rw [anyFloat, anyFloat_eq_any rest, List.any_cons]

theorem anyMemberFloat_eq_any : ∀ members : List (String × Value),
    anyMemberFloat members = members.any fun member => member.2.hasFloat
  | [] => rfl
  | (_, value) :: rest => by rw [anyMemberFloat, anyMemberFloat_eq_any rest, List.any_cons]

theorem texts_eq_map : ∀ items : List Value, texts items = items.map text
  | [] => rfl
  | value :: rest => by rw [texts, texts_eq_map rest, List.map_cons]

theorem memberTexts_eq_map : ∀ members : List (String × Value),
    memberTexts members = members.map fun member => (member.1, member.2.text)
  | [] => rfl
  | (_, value) :: rest => by rw [memberTexts, memberTexts_eq_map rest, List.map_cons]

end Value

/-- The value is read from its text. -/
def ReadsBack (levels : Nat) (value : Value) : Prop :=
  Reads Decoder.value levels value.text value

theorem readsBack_of_writes {levels : Nat} {value : Value} {tree : Tree} (hwrites : Writes value.text tree)
    (hread : Tree.value? levels tree = some value) : ReadsBack levels value :=
  ⟨tree, hwrites, hread⟩

theorem value?_of_list {levels : Nat} {tree : Tree} {items : List Value}
    (h : Decoder.value.list levels tree = some items) : Tree.value? levels tree = some (.list items) := by
  cases tree with
  | list trees =>
    cases levels with
    | zero => cases h
    | succ levels =>
      have hitems : trees.mapM (Tree.value? levels) = some items := h
      rw [Tree.value?, hitems, Option.map_some]
  | _ => cases levels <;> cases h

theorem value?_of_dictionary {levels : Nat} {tree : Tree} {members : Dictionary Value}
    (h : Decoder.value.dictionary levels tree = some members) :
    Tree.value? levels tree = some (.object members) := by
  cases tree with
  | object trees =>
    cases levels with
    | zero => cases h
    | succ levels =>
      obtain ⟨pairs, hpairs, rfl⟩ := Option.map_eq_some_iff.mp h
      rw [Tree.value?]
      exact Option.map_eq_some_iff.mpr ⟨pairs, hpairs, rfl⟩
  | _ => cases levels <;> cases h

theorem writes_null : Writes Value.null.text .null :=
  cutsInto_null

theorem writes_bool : ∀ b : Bool, Writes (Value.bool b).text (.bool b)
  | true => cutsInto_true
  | false => cutsInto_false

theorem readsBack_list {levels : Nat} {items : List Value} (h : ∀ item ∈ items, ReadsBack levels item) :
    ReadsBack (levels + 1) (.list items) := by
  obtain ⟨tree, hwrites, hread⟩ := reads_list h
  rw [← Value.texts_eq_map] at hwrites
  exact ⟨tree, hwrites, value?_of_list hread⟩

theorem readsBack_object {levels : Nat} {members : Dictionary Value} (hsorted : (members.map (·.1)).Pairwise (· < ·))
    (h : ∀ member ∈ members, ReadsBack levels member.2) : ReadsBack (levels + 1) (.object members) := by
  obtain ⟨tree, hwrites, hread⟩ := reads_dictionary hsorted h
  rw [← Value.memberTexts_eq_map] at hwrites
  exact ⟨tree, hwrites, value?_of_dictionary hread⟩

/-- A value without floating point numbers that was read can be written so that it is read again. -/
theorem readsBack_of_value? : ∀ {levels : Nat} {tree : Tree} {value : Value},
    Tree.value? levels tree = some value → value.hasFloat = false → ReadsBack levels value
  | levels, .null, value, h, _ => by
    rw [Tree.value?] at h
    obtain rfl := Option.some.inj h
    exact readsBack_of_writes writes_null (by rw [Tree.value?])
  | levels, .bool b, value, h, _ => by
    rw [Tree.value?] at h
    obtain rfl := Option.some.inj h
    exact readsBack_of_writes (writes_bool b) (by rw [Tree.value?])
  | levels, .number parts, value, h, hfloat => by
    rw [Tree.value?] at h
    obtain ⟨number, hnumber, rfl⟩ := Option.map_eq_some_iff.mp h
    have hinteger : ∀ x, number ≠ .float x := by
      rintro x rfl
      cases hfloat
    obtain ⟨written, hwrites, hread⟩ := exists_written_number hnumber hinteger
    exact readsBack_of_writes hwrites (by rw [Tree.value?, hread, Option.map_some])
  | levels, .string codes, value, h, _ => by
    rw [Tree.value?] at h
    obtain ⟨text, -, rfl⟩ := Option.map_eq_some_iff.mp h
    exact readsBack_of_writes (writes_quote text) (by rw [Tree.value?, textOfCodes?_codesOf, Option.map_some])
  | levels + 1, .list items, value, h, hfloat => by
    rw [Tree.value?] at h
    obtain ⟨values, hvalues, rfl⟩ := Option.map_eq_some_iff.mp h
    rw [Value.hasFloat, Value.anyFloat_eq_any, List.any_eq_false] at hfloat
    refine readsBack_list fun item hitem => ?_
    obtain ⟨tree, -, htree⟩ := exists_of_mem_mapM hvalues hitem
    exact readsBack_of_value? htree (Bool.eq_false_iff.mpr (hfloat item hitem))
  | levels + 1, .object members, value, h, hfloat => by
    rw [Tree.value?] at h
    obtain ⟨pairs, hpairs, rfl⟩ := Option.map_eq_some_iff.mp h
    rw [Value.hasFloat, Value.anyMemberFloat_eq_any, List.any_eq_false] at hfloat
    refine readsBack_object (Dictionary.pairwise_ofList pairs) fun member hmember => ?_
    obtain ⟨source, -, hsource⟩ := exists_of_mem_mapM hpairs (Dictionary.mem_of_mem_ofList hmember)
    obtain ⟨key, -, hrest⟩ := Option.bind_eq_some_iff.mp hsource
    obtain ⟨read, hread, hmember'⟩ := Option.bind_eq_some_iff.mp hrest
    obtain rfl := Option.some.inj hmember'
    exact readsBack_of_value? hread (Bool.eq_false_iff.mpr (hfloat _ hmember))
  | 0, .list _, _, h, _ => by
    rw [Tree.value?] at h
    cases h
  | 0, .object _, _, h, _ => by
    rw [Tree.value?] at h
    cases h

end Json
end EthWire
