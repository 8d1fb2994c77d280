/-
# Every number has one item

A number is written as its digits without zeros in front. The field that holds it leaves no trace: a number of
64 bits has the item of the word that is the same number (`Rlp.Item.ofWord_eq_ofUInt64_iff`).

Reading back goes the other way only. An item is read as a number exactly if it is the item of that number. Any
other item fails, for the first of three reasons: it is a list, it has more octets than the field holds, or there
is a zero in front (`Rlp.Item.IsNoNumber`). One reader takes the number of the octets and the other shifts them in,
which comes to the same (`Rlp.Item.shiftIn_eq`); so they give the same number where both give one.

Key definitions: `Rlp.Item.IsNoNumber`, `Rlp.Item.ReadsNumbers`.
Key theorems: `Rlp.Item.integerOctets_eq_error_iff`, `Rlp.Item.ofWord_eq_ofUInt64_iff`,
`Rlp.Item.numbers_are_read_from_their_items`.
-/
import EthWire.Proofs.Rlp.Conventions

namespace EthWire
namespace Rlp
namespace Item

/-! ### Items that are no numbers -/

/-- An item that is no number of at most so many octets, with what is wrong with it. -/
inductive IsNoNumber (max : Nat) : Item → Error → Prop where
  | list (items : List Item) : IsNoNumber max (.list items) .rlpShape
  | long {content : Bytes} (longer : max < content.length) :
      IsNoNumber max (.bytes content) (.rlpIntegerSize content.length max)
  | zero {content : Bytes} (short : content.length ≤ max) (in_front : content.head? = some 0) :
      IsNoNumber max (.bytes content) .rlpLeadingZero

/-- The reader of a field of so many octets reads each number from the item that the number is written as. Every
other item fails, and the failure says what is wrong with it. -/
structure ReadsNumbers {α : Type} (read : Item → Except Error α) (write : α → Item) (max : Nat) : Prop where
  ok_iff : ∀ item n, read item = .ok n ↔ item = write n
  exists_error_iff : ∀ item, (∃ cause, read item = .error cause) ↔ ∀ n, item ≠ write n
  error_iff : ∀ item cause, read item = .error cause ↔ IsNoNumber max item cause

theorem integerOctets_eq_error_iff {max : Nat} {item : Item} {cause : Error} :
    item.integerOctets max = .error cause ↔ IsNoNumber max item cause := by
  cases item with
  | list items =>
    have hlist : integerOctets max (.list items) = .error .rlpShape := rfl
    rw [hlist, Except.error.injEq]
    constructor
    · rintro rfl
      exact .list items
    · rintro ⟨⟩
      rfl
  | bytes content =>
    have hbytes : integerOctets max (.bytes content) = .error cause ↔
        (max < content.length ∧ .rlpIntegerSize content.length max = cause) ∨
          (¬ max < content.length ∧ content.head? = some 0 ∧ .rlpLeadingZero = cause) := by
      simp only [integerOctets, asBytes, bind_eq_error_iff, reduceCtorEq, Except.ok.injEq, false_or,
        exists_eq_left', guard_eq_error_iff, pure_ne_error, and_false, or_false]
    rw [hbytes]
    constructor
    · rintro (⟨hlonger, rfl⟩ | ⟨hshort, hzero, rfl⟩)
      · exact .long hlonger
      · exact .zero (Nat.le_of_not_lt hshort) hzero
    · intro h
      cases h with
      | long hlonger => exact .inl ⟨hlonger, rfl⟩
      | zero hshort hzero => exact .inr ⟨Nat.not_lt_of_le hshort, hzero, rfl⟩

/-- Whatever is made of the octets, the reader is strict if it reads each number from its own item only. -/
theorem readsNumbers_of_ok_iff {α : Type} {write : α → Item} {max : Nat} {make : Bytes → α}
    (h : ∀ item n, (integerOctets max item).map make = .ok n ↔ item = write n) :
    ReadsNumbers (fun item => (integerOctets max item).map make) write max where
  ok_iff := h
  exists_error_iff item := by
    constructor
    · rintro ⟨cause, hcause⟩ n hn
      rw [(h item n).mpr hn] at hcause
      cases hcause
    · intro hother
      exact exists_error_of_forall_ne_ok fun n hn => hother n ((h item n).mp hn)
  error_iff item cause := map_eq_error_iff.trans integerOctets_eq_error_iff

/-! ### One item for one number -/

/-- The item of a number does not depend on the field: it is the same for a word and for 64 bits. -/
theorem ofWord_eq_ofUInt64_iff {word : Word} {n : UInt64} : ofWord word = ofUInt64 n ↔ word.toNat = n.toNat := by
  have hword : word.toNat < 256 ^ 32 := word.isLt
  have hn : n.toNat < 256 ^ 8 := n.toNat_lt
  have hdigits := Bytes.ofBigEndian_significant_toBigEndian hn
  constructor
  · intro h
    have hcontent : Bytes.significant word.toBytes = Bytes.significant (Bytes.toBigEndian 8 n.toNat) :=
      Item.bytes.inj h
    calc word.toNat = Bytes.ofBigEndian (Bytes.significant word.toBytes) :=
          (Bytes.ofBigEndian_significant_toBigEndian hword).symm
      _ = n.toNat := by rw [hcontent, hdigits]
  · intro h
    -- at most 8 digits are left, and these are written in 32 octets behind zeros only
    have hshort : (Bytes.significant (Bytes.toBigEndian 8 n.toNat)).length ≤ 32 := by
      have hle := Bytes.length_significant_le (Bytes.toBigEndian 8 n.toNat)
      rw [Bytes.length_toBigEndian] at hle
      omega
    have hwide := Bytes.significant_toBigEndian_ofBigEndian hshort (Bytes.head?_significant _)
    rw [hdigits] at hwide
    rw [ofWord, Word.toBytes, h, hwide, ofUInt64]

/-- **Every number has one item, and every other item is refused.** Words and numbers of 64 bits are read from
the items that they are written as. A list, more octets than 32 or 8, or a zero in front is a failure, and there is
no other. A number of 64 bits is read exactly where the reader of words gives the same number. -/
theorem numbers_are_read_from_their_items :
    ReadsNumbers toWord ofWord 32 ∧ ReadsNumbers toUInt64 ofUInt64 8 ∧
      ∀ item n, toUInt64 item = .ok n ↔ ∃ word, toWord item = .ok word ∧ word.toNat = n.toNat := by
  refine ⟨readsNumbers_of_ok_iff fun _ _ => toWord_eq_ok_iff, readsNumbers_of_ok_iff fun _ _ => toUInt64_eq_ok_iff,
    fun item n => ?_⟩
  rw [toUInt64_eq_ok_iff]
  constructor
  · rintro rfl
    have hroom : n.toNat < 2 ^ 256 := Nat.lt_of_lt_of_le n.toNat_lt (by decide)
    have hsame : (BitVec.ofNat 256 n.toNat).toNat = n.toNat := by
      rw [BitVec.toNat_ofNat, Nat.mod_eq_of_lt hroom]
    exact ⟨_, toWord_eq_ok_iff.mpr (ofWord_eq_ofUInt64_iff.mpr hsame).symm, hsame⟩
  · rintro ⟨word, hword, hsame⟩
    rw [toWord_eq_ok_iff.mp hword, ofWord_eq_ofUInt64_iff.mpr hsame]

end Item
end Rlp
end EthWire
