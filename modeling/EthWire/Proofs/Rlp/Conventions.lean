/-
# Conventions have one item for each value

Numbers, flags, hashes, addresses and signatures are written as items, and read back strictly: an item is
read as a value exactly when it is the item that the value is written as. The laws are equivalences, so
they rule out a second spelling and a value without a spelling at once, and a list of values obeys the
same law as its elements (`mapM_eq_ok_iff`).

Key theorems: `Rlp.Item.toWord_eq_ok_iff`, `Rlp.Item.toUInt64_eq_ok_iff`, `Rlp.Item.toBool_eq_ok_iff`,
`Rlp.Item.toHash_eq_ok_iff`, `Address.ofItem_eq_ok_iff`, `Signature.ofItems_eq_ok_iff`.
-/
import EthWire.Proofs.Bytes.BigEndian
import EthWire.Proofs.Outcome
import EthWire.Signing.Signature

namespace EthWire

namespace Word

theorem toBytes_ofBytes {bytes : Bytes} (h : bytes.length = 32) : (ofBytes bytes).toBytes = bytes := by
  rw [toBytes, toNat_ofBytes (Nat.le_of_eq h), ← h, Bytes.toBigEndian_ofBigEndian_length]

theorem ofBytesExactly_eq_ok_iff {bytes : Bytes} {word : Word} :
    ofBytesExactly bytes = .ok word ↔ bytes = word.toBytes := by
  simp only [ofBytesExactly, map_eq_ok_iff, Bytes.exactly, ite_ok_eq_ok_iff, Except.ok.injEq]
  refine ⟨fun h => ?_, fun h => ?_⟩
  · obtain ⟨_, ⟨hlen, rfl⟩, rfl⟩ := h
    rw [toBytes_ofBytes hlen]
  · subst h
    exact ⟨_, ⟨length_toBytes word, rfl⟩, ofBytes_toBytes word⟩

theorem significant_toBytes_ofBytes {bytes : Bytes} (hl : bytes.length ≤ 32) (h0 : bytes.head? ≠ some 0) :
    Bytes.significant (ofBytes bytes).toBytes = bytes := by
  rw [toBytes, toNat_ofBytes hl, Bytes.significant_toBigEndian_ofBigEndian hl h0]

theorem ofBytes_significant_toBytes (word : Word) : ofBytes (Bytes.significant word.toBytes) = word := by
  have h := ofBytes_toBytes word
  rwa [ofBytes, ← Bytes.ofBigEndian_significant] at h

end Word

namespace Rlp
namespace Item

theorem asBytes_eq_ok_iff {item : Item} {content : Bytes} :
    item.asBytes = .ok content ↔ item = .bytes content := by
  cases item <;> simp [asBytes]

theorem asList_eq_ok_iff {item : Item} {items : List Item} :
    item.asList = .ok items ↔ item = .list items := by
  cases item <;> simp [asList]

theorem integerOctets_eq_ok_iff {max : Nat} {item : Item} {content : Bytes} :
    item.integerOctets max = .ok content ↔
      item = .bytes content ∧ content.length ≤ max ∧ content.head? ≠ some 0 := by
  simp only [integerOctets, bind_eq_ok_iff, asBytes_eq_ok_iff, guard_eq_ok_iff, pure_eq_ok_iff]
  refine ⟨fun h => ?_, fun h => ?_⟩
  · obtain ⟨_, rfl, hl, h0, rfl⟩ := h
    exact ⟨rfl, by omega, h0⟩
  · obtain ⟨rfl, hl, h0⟩ := h
    exact ⟨content, rfl, by omega, h0, rfl⟩

/-- A word is read from its own item only. -/
theorem toWord_eq_ok_iff {item : Item} {word : Word} : item.toWord = .ok word ↔ item = ofWord word := by
  simp only [toWord, map_eq_ok_iff, integerOctets_eq_ok_iff]
  refine ⟨fun h => ?_, fun h => ?_⟩
  · obtain ⟨content, ⟨rfl, hl, h0⟩, rfl⟩ := h
    rw [ofWord, Word.significant_toBytes_ofBytes hl h0]
  · subst h
    refine ⟨_, ⟨rfl, ?_, Bytes.head?_significant _⟩, Word.ofBytes_significant_toBytes word⟩
    simpa using Bytes.length_significant_le word.toBytes

/-- One more octet is one more digit; what is above 64 bits is lost on both sides. -/
theorem shiftLeft_or_toUInt64 (n : Nat) (b : UInt8) :
    UInt64.ofNat n <<< 8 ||| b.toUInt64 = UInt64.ofNat (n * 256 + b.toNat) := by
  have hb : b.toNat < 2 ^ 8 := b.toNat_lt
  have hlost : n % 2 ^ 64 * 256 % 2 ^ 64 = n % 2 ^ 56 * 2 ^ 8 := by omega
  apply UInt64.toNat_inj.mp
  rw [UInt64.toNat_or, UInt64.toNat_shiftLeft, UInt8.toNat_toUInt64, UInt64.toNat_ofNat', UInt64.toNat_ofNat',
    Nat.shiftLeft_eq]
  change n % 2 ^ 64 * 256 % 2 ^ 64 ||| b.toNat = _
  rw [hlost, ← Nat.shiftLeft_eq, ← Nat.shiftLeft_add_eq_or_of_lt hb, Nat.shiftLeft_eq]
  omega

theorem shiftIn_eq (content : Bytes) : shiftIn content = UInt64.ofNat (Bytes.ofBigEndian content) := by
  have hfold : ∀ (content : Bytes) (n : Nat),
      content.foldl (fun (shifted : UInt64) b => shifted <<< 8 ||| b.toUInt64) (UInt64.ofNat n)
        = UInt64.ofNat (content.foldl (fun n b => n * 256 + b.toNat) n) := by
    intro content
    induction content with
    | nil => exact fun n => rfl
    | cons b rest ih =>
      intro n
      rw [List.foldl_cons, List.foldl_cons, shiftLeft_or_toUInt64, ih]
  exact hfold content 0

/-- A number of 64 bits is read from its own item only. -/
theorem toUInt64_eq_ok_iff {item : Item} {n : UInt64} : item.toUInt64 = .ok n ↔ item = ofUInt64 n := by
  simp only [toUInt64, map_eq_ok_iff, integerOctets_eq_ok_iff, shiftIn_eq]
  refine ⟨fun h => ?_, fun h => ?_⟩
  · obtain ⟨content, ⟨rfl, hl, h0⟩, rfl⟩ := h
    have hlt : Bytes.ofBigEndian content < 256 ^ 8 :=
      Nat.lt_of_lt_of_le (Bytes.ofBigEndian_lt content) (Nat.pow_le_pow_right (by decide) hl)
    rw [ofUInt64, UInt64.toNat_ofNat', Nat.mod_eq_of_lt (by omega),
      Bytes.significant_toBigEndian_ofBigEndian hl h0]
  · subst h
    refine ⟨_, ⟨rfl, ?_, Bytes.head?_significant _⟩, ?_⟩
    · simpa using Bytes.length_significant_le (Bytes.toBigEndian 8 n.toNat)
    · have hn := n.toNat_lt
      rw [Bytes.ofBigEndian_significant_toBigEndian (by omega), UInt64.ofNat_toNat]

/-- A flag is read from its own item only. -/
theorem toBool_eq_ok_iff {other : Error} {item : Item} {flag : Bool} :
    item.toBool other = .ok flag ↔ item = ofBool flag := by
  simp only [toBool, bind_eq_ok_iff, toUInt64_eq_ok_iff, ofBool]
  refine ⟨fun h => ?_, fun h => ?_⟩
  · obtain ⟨n, rfl, h⟩ := h
    by_cases h0 : n = 0
    · rw [if_pos h0, pure_eq_ok_iff] at h
      rw [← h, h0]
      rfl
    · by_cases h1 : n = 1
      · rw [if_neg h0, if_pos h1, pure_eq_ok_iff] at h
        rw [← h, h1]
        rfl
      · rw [if_neg h0, if_neg h1] at h
        exact absurd h throw_ne_ok
  · subst h
    exact ⟨_, rfl, by cases flag <;> rfl⟩

theorem toHash_eq_ok_iff {item : Item} {word : Word} : item.toHash = .ok word ↔ item = ofHash word := by
  simp only [toHash, bind_eq_ok_iff, asBytes_eq_ok_iff, Word.ofBytesExactly_eq_ok_iff, ofHash]
  simp

end Item
end Rlp

namespace Address

theorem ofBytes_eq_ok_iff {bytes : Bytes} {address : Address} :
    ofBytes bytes = .ok address ↔ bytes = address.toBytes := by
  simp only [ofBytes, ite_ok_eq_ok_iff, Except.ok.injEq]
  refine ⟨fun h => ?_, fun h => ?_⟩
  · obtain ⟨hlen, rfl⟩ := h
    have hlt := Bytes.ofBigEndian_lt bytes
    rw [hlen] at hlt
    rw [toBytes, BitVec.toNat_ofNat, Nat.mod_eq_of_lt (by omega), ← hlen,
      Bytes.toBigEndian_ofBigEndian_length]
  · subst h
    have hlt := address.value.isLt
    rw [toBytes, Bytes.ofBigEndian_toBigEndian, Nat.mod_eq_of_lt (by omega), BitVec.ofNat_toNat]
    simp

/-- An address is read from its own item only. -/
theorem ofItem_eq_ok_iff {item : Rlp.Item} {address : Address} :
    ofItem item = .ok address ↔ item = address.toItem := by
  simp only [ofItem, bind_eq_ok_iff, Rlp.Item.asBytes_eq_ok_iff, ofBytes_eq_ok_iff, toItem]
  simp

end Address

namespace Signature

/-- A signature behind other fields is read from its own items only, and none from no items. -/
theorem ofItems_eq_ok_iff {items : List Rlp.Item} {signature : Option Signature} :
    ofItems items = .ok signature ↔ items = signature.elim [] toItems := by
  unfold ofItems
  split
  · cases signature <;> simp [toItems]
  · simp only [bind_eq_ok_iff, pure_eq_ok_iff, Rlp.Item.toBool_eq_ok_iff, Rlp.Item.toWord_eq_ok_iff]
    constructor
    · intro h
      obtain ⟨_, rfl, _, rfl, _, rfl, rfl⟩ := h
      rfl
    · cases signature with
      | none => simp
      | some signature =>
        intro h
        simp only [Option.elim, toItems, List.cons.injEq, and_true] at h
        obtain ⟨rfl, rfl, rfl⟩ := h
        exact ⟨_, rfl, _, rfl, _, rfl, rfl⟩
  · rename_i hnil hthree
    cases signature with
    | none => simpa using fun h => hnil h
    | some signature => simpa [toItems] using fun h => hthree _ _ _ h

end Signature
end EthWire
